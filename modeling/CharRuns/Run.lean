import CharRuns.CodePoint
import CharRuns.Rule

/-!
# Runs

A run is up to 511 consecutive code points that share one grammar rule. A value of `Run` lies
within the code space and is never empty; `Run.make` says which bound a candidate breaks, the
start before the length, the length before the end.

A run fits in one 32-bit word: the start in the low 21 bits, the length in the next 9, the rule
code in the top 2. Unpacking refuses a word whose fields are no run, the rule field first.
-/

namespace CharRuns

/-- The longest run, as long as a nine-bit field can say. -/
def Run.maxLength : Nat := 511

/-- Consecutive code points that share a rule. -/
structure Run where
  start : Nat
  length : Nat
  rule : Rule
  start_le : start ≤ CodePoint.max
  length_pos : 0 < length
  length_le : length ≤ Run.maxLength
  last_le : start + length - 1 ≤ CodePoint.max
  deriving DecidableEq

namespace Run

/-- Why numbers do not make a run. -/
inductive Fault where
  | startOutOfRange (codePoint : Nat)
  | empty (start : Nat)
  | tooLong (start length : Nat)
  | endOutOfRange (start length : Nat)
  | unknownRule (code : Nat)
  deriving DecidableEq, Repr

/-- A fault in words. -/
def Fault.message : Fault → String
  | startOutOfRange n =>
    s!"run start {CodePoint.display n} does not fit in 21 bits "
      ++ s!"(max {CodePoint.display CodePoint.max})"
  | empty start => s!"run at {CodePoint.display start} is empty"
  | tooLong start length =>
    s!"run at {CodePoint.display start} has length {length}, which exceeds {maxLength}"
  | endOutOfRange start length =>
    s!"run at {CodePoint.display start} of length {length} extends beyond "
      ++ CodePoint.display CodePoint.max
  | unknownRule code => s!"rule code {Binary.display code} does not name a grammar rule"

/-- The run of `length` code points from `start` on, if there is one. -/
def make (start length : Nat) (rule : Rule) : Except Fault Run :=
  if hs : CodePoint.max < start then .error (.startOutOfRange start)
  else if hz : length = 0 then .error (.empty start)
  else if hl : maxLength < length then .error (.tooLong start length)
  else if he : CodePoint.max < start + length - 1 then .error (.endOutOfRange start length)
  else .ok
    { start, length, rule
      start_le := Nat.le_of_not_lt hs
      length_pos := Nat.pos_of_ne_zero hz
      length_le := Nat.le_of_not_lt hl
      last_le := Nat.le_of_not_lt he }

/-- The last code point. -/
def last (r : Run) : Nat :=
  r.start + r.length - 1

/-- The code point is one of those in the run. -/
def covers (r : Run) (n : Nat) : Bool :=
  r.start ≤ n && n ≤ r.last

/-- The row of a run in a generated table: start, length and rule code between braces. -/
def display (r : Run) : String :=
  s!"\x7b 0x{Hex.lower 4 r.start}, {r.length}, {r.rule.code} \x7d"

/-- The width of the field that holds the start. -/
def startBits : Nat := 21

/-- The width of the field that holds the length. -/
def lengthBits : Nat := 9

/-- The width of the field that holds the rule code. -/
def ruleBits : Nat := 2

/-- A word whose `bits` low bits are set. -/
def mask (bits : Nat) : UInt32 :=
  ((1 : UInt32) <<< UInt32.ofNat bits) - 1

/-- Where the length begins. -/
def lengthShift : UInt32 := UInt32.ofNat startBits

/-- Where the rule code begins. -/
def ruleShift : UInt32 := UInt32.ofNat (startBits + lengthBits)

/-- The word that a run is stored as. -/
def pack (r : Run) : UInt32 :=
  UInt32.ofNat r.start ||| (UInt32.ofNat r.length <<< lengthShift)
    ||| (UInt32.ofNat r.rule.code <<< ruleShift)

/-- The run that a word stores, if its fields make one. -/
def unpack (word : UInt32) : Except Fault Run :=
  let start := (word &&& mask startBits).toNat
  let length := ((word >>> lengthShift) &&& mask lengthBits).toNat
  let code := ((word >>> ruleShift) &&& mask ruleBits).toNat
  match Rule.ofCode? code with
  | none => .error (.unknownRule code)
  | some rule => make start length rule

theorem make_eq_ok (r : Run) : make r.start r.length r.rule = .ok r := by
  have h₁ := r.start_le
  have h₂ := r.length_pos
  have h₃ := r.length_le
  have h₄ := r.last_le
  unfold make
  rw [dif_neg (by omega), dif_neg (by omega), dif_neg (by omega), dif_neg (by omega)]

theorem last_add_one (r : Run) : r.last + 1 = r.start + r.length := by
  have := r.length_pos
  unfold last
  omega

theorem covers_iff (r : Run) (n : Nat) :
    r.covers n = true ↔ r.start ≤ n ∧ n < r.start + r.length := by
  have := r.last_add_one
  simp only [covers, Bool.and_eq_true, decide_eq_true_eq]
  omega

end Run

end CharRuns
