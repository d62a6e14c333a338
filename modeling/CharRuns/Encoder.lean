import CharRuns.Table

/-!
# The run encoder

The encoder takes code points in ascending order, each with its rule or none, and holds at most
one run in progress. A code point extends that run if it has the same rule, is the next one and
the run is not full; otherwise the run is closed and the code point opens another. Code points
without a rule, and code points passed over, are not recorded.

A push changes the encoder as it goes, so that one is left also when the push is refused: the code
point counts as taken before a run is closed for it, and a run that cannot be closed is lost. A
caller that stops at the first refusal feeds the encoder (`feed`). Encoding spans is encoding the
pairs they stand for (`encodeSpans_eq`).
-/

namespace CharRuns

namespace Encoder

/-- The run in progress. -/
inductive State where
  | idle
  | within (start : Nat) (rule : Rule) (length : Nat)
  deriving DecidableEq, Repr, Inhabited

namespace State

/-- A run of one code point, or none without a rule. -/
def start (n : Nat) : Option Rule → State
  | some rule => within n rule 1
  | none => idle

/-- The run with one more code point, if the code point continues it. The subtraction is exact
when code points ascend. -/
def extend? (s : State) (n : Nat) (rule : Option Rule) : Option State :=
  match s with
  | idle => none
  | within first current length =>
    if rule = some current ∧ length < Run.maxLength ∧ length = n - first then
      some (within first current (length + 1))
    else none

/-- How long the run is so far. -/
def length : State → Nat
  | idle => 0
  | within _ _ length => length

end State

/-- Why an encoder refuses a code point, or cannot close a run. -/
inductive Fault where
  | run (fault : Run.Fault)
  | outOfOrder (previous codePoint : Nat)
  deriving DecidableEq, Repr

/-- A fault in words. -/
def Fault.message : Fault → String
  | run fault => fault.message
  | outOfOrder previous n =>
    s!"{CodePoint.display n} was fed after {CodePoint.display previous}; code points must ascend"

end Encoder

/-- A run-length encoder between two code points. -/
structure Encoder where
  state : Encoder.State
  /-- Runs that can no longer grow. -/
  closed : Array Run
  /-- The last code point taken. -/
  previous : Option Nat
  /-- The length of the longest run so far, the one in progress included. -/
  longest : Nat
  deriving DecidableEq

namespace Encoder

/-- An encoder that has taken nothing. -/
def empty : Encoder :=
  { state := .idle, closed := #[], previous := none, longest := 0 }

/-- Closes the run in progress, if there is one. -/
def close (e : Encoder) : Encoder × Except Fault Unit :=
  match e.state with
  | .idle => (e, .ok ())
  | .within first rule length =>
    match Run.make first length rule with
    | .ok run => ({ e with state := .idle, closed := e.closed.push run }, .ok ())
    | .error fault => ({ e with state := .idle }, .error (.run fault))

/-- Lets the run in progress grow by a code point, or closes it and starts another. -/
def record (e : Encoder) (n : Nat) (rule : Option Rule) : Encoder × Except Fault Unit :=
  match e.state.extend? n rule with
  | some grown => ({ e with state := grown, longest := max e.longest grown.length }, .ok ())
  | none =>
    match e.close with
    | (e, .error fault) => (e, .error fault)
    | (e, .ok ()) =>
      let fresh := State.start n rule
      ({ e with state := fresh, longest := max e.longest fresh.length }, .ok ())

/-- Pushes the next code point with its rule. -/
def push (e : Encoder) (n : Nat) (rule : Option Rule) : Encoder × Except Fault Unit :=
  if CodePoint.max < n then (e, .error (.run (.startOutOfRange n)))
  else
    match e.previous.filter (n ≤ ·) with
    | some previous => (e, .error (.outOfOrder previous n))
    | none => record { e with previous := some n } n rule

/-- The closed runs as a table, once the run in progress has been closed too. -/
def finish (e : Encoder) : Except Fault Table :=
  match e.close with
  | (e, .ok ()) => .ok ⟨e.closed, e.longest⟩
  | (_, .error fault) => .error fault

/-- The encoder behind a push that is not refused. -/
def feed (e : Encoder) (n : Nat) (rule : Option Rule) : Except Fault Encoder :=
  match e.push n rule with
  | (e, .ok ()) => .ok e
  | (_, .error fault) => .error fault

/-- Takes pairs of a code point and its rule, up to the first refusal. -/
def feedAll (e : Encoder) (pairs : List (Nat × Option Rule)) : Except Fault Encoder :=
  pairs.foldlM (fun e p => e.feed p.1 p.2) e

/-- Takes the `count` code points from `n` on with the rules that `verdict` gives them. -/
def feedEach (verdict : Nat → Option Rule) (e : Encoder) (n : Nat) : Nat → Except Fault Encoder
  | 0 => .ok e
  | count + 1 =>
    match e.feed n (verdict n) with
    | .ok e => feedEach verdict e (n + 1) count
    | .error fault => .error fault

/-- Takes the code points that are left to a cursor with the rules that `verdict` gives them. -/
def feedAlong (verdict : Nat → Option Rule) (e : Encoder) (c : Cursor) : Except Fault Encoder :=
  match _ : c.advance with
  | (none, _) => .ok e
  | (some n, c) =>
    match e.feed n.toNat (verdict n.toNat) with
    | .ok e => feedAlong verdict e c
    | .error fault => .error fault
termination_by c.remaining
decreasing_by
  have := Cursor.remaining_of_advance ‹_›
  omega

theorem feedEach_eq_feedAll (verdict : Nat → Option Rule) (e : Encoder) (n count : Nat) :
    e.feedEach verdict n count
      = e.feedAll ((List.range' n count).map fun m => (m, verdict m)) := by
  induction count generalizing e n with
  | zero => rfl
  | succ count ih =>
    rw [feedEach, feedAll, List.range'_succ, List.map_cons, List.foldlM_cons]
    cases e.feed n (verdict n) with
    | error fault => rfl
    | ok e => exact ih e (n + 1)

theorem feedAll_append (e : Encoder) (xs ys : List (Nat × Option Rule)) :
    e.feedAll (xs ++ ys) = (e.feedAll xs).bind fun e => e.feedAll ys := by
  unfold feedAll
  rw [List.foldlM_append]
  rfl

end Encoder

/-- The run table of pairs of a code point and its rule. -/
def encode (pairs : List (Nat × Option Rule)) : Except Encoder.Fault Table :=
  (Encoder.empty.feedAll pairs).bind Encoder.finish

/-- Consecutive code points with one verdict. -/
structure Span where
  start : Nat
  count : Nat
  rule : Option Rule
  deriving DecidableEq, Repr

/-- The pairs that a span stands for. -/
def Span.pairs (s : Span) : List (Nat × Option Rule) :=
  (List.range' s.start s.count).map fun n => (n, s.rule)

/-- Takes the pairs that spans stand for, up to the first refusal. -/
def Encoder.feedSpans : Encoder → List Span → Except Encoder.Fault Encoder
  | e, [] => .ok e
  | e, s :: spans =>
    match e.feedEach (fun _ => s.rule) s.start s.count with
    | .ok e => e.feedSpans spans
    | .error fault => .error fault

/-- Run-length encodes the pairs that spans stand for, without listing them. -/
def encodeSpans (spans : List Span) : Except Encoder.Fault Table :=
  (Encoder.empty.feedSpans spans).bind Encoder.finish

theorem Encoder.feedSpans_eq_feedAll (e : Encoder) (spans : List Span) :
    e.feedSpans spans = e.feedAll (spans.flatMap Span.pairs) := by
  induction spans generalizing e with
  | nil => rfl
  | cons s spans ih =>
    rw [List.flatMap_cons, feedAll_append, feedSpans, feedEach_eq_feedAll]
    change (match e.feedAll s.pairs with | .ok e => _ | .error fault => _) = _
    cases e.feedAll s.pairs with
    | error fault => rfl
    | ok e => exact ih e

theorem encodeSpans_eq (spans : List Span) :
    encodeSpans spans = encode (spans.flatMap Span.pairs) := by
  rw [encodeSpans, encode, Encoder.feedSpans_eq_feedAll]

end CharRuns
