import CharRuns.Run

/-!
# Run tables

A table lists runs in ascending order; a code point that no run covers has no rule. The rule of
a code point is found by binary search on the ends of the runs. `check` looks at neighbours:
they must not overlap, and a run may go on where the one before it ends only if it has another
rule or that one is full.
-/

namespace CharRuns

/-- Runs in ascending order, and the length of the longest. -/
structure Table where
  runs : Array Run
  longest : Nat
  deriving DecidableEq

namespace Table

/-- How many runs a table has. -/
def size (t : Table) : Nat := t.runs.size

/-- A table without a run. -/
def isEmpty (t : Table) : Bool := t.runs.isEmpty

/-- The rule of a code point, or nothing if no run covers it. -/
def ruleAt (t : Table) (n : Nat) : Option Rule :=
  let i := Search.boundary (fun run => run.last < n) t.runs
  (t.runs[i]?.filter (·.covers n)).map (·.rule)

/-- The runs as words. -/
def packed (t : Table) : Array UInt32 :=
  t.runs.map Run.pack

/-- What is wrong with two neighbours. -/
inductive Defect where
  | overlap (previousLast start : Nat)
  | unmerged (start : Nat) (rule : Rule)
  deriving DecidableEq, Repr

/-- A defect in words. -/
def Defect.message : Defect → String
  | overlap previousLast start =>
    s!"run at {CodePoint.display start} overlaps or precedes the run ending at "
      ++ CodePoint.display previousLast
  | unmerged start rule =>
    s!"run at {CodePoint.display start} continues the previous {rule.name} run, "
      ++ "which is not full"

/-- Checks the runs that follow `previous`. -/
def checkAfter (previous : Run) : List Run → Except Defect Unit
  | [] => .ok ()
  | run :: runs =>
    if run.start ≤ previous.last then .error (.overlap previous.last run.start)
    else if run.start = previous.last + 1 ∧ run.rule = previous.rule
        ∧ previous.length < Run.maxLength then
      .error (.unmerged run.start run.rule)
    else checkAfter run runs

/-- Checks each two neighbours, from the front. -/
def check (t : Table) : Except Defect Unit :=
  match t.runs.toList with
  | [] => .ok ()
  | run :: runs => checkAfter run runs

end Table

end CharRuns
