import CharRuns.Basic

/-!
# Code points

A code point is a natural number; the ones that Unicode defines end at `CodePoint.max`. Numbers
beyond it may be asked about and are refused where a code point is stored.

A cursor walks an inclusive interval of 32-bit numbers upwards, such as the code space. The last of
them may be `2 ^ 32 - 1`. So an interval from which that one has been taken away keeps its ends and
is marked as used up, and a cursor keeps apart from its position whether the last number has been
given. `Cursor.remaining` is the number of values still to come; each value given lowers it by one
(`Cursor.remaining_of_advance`).
-/

namespace CharRuns.CodePoint

/-- The last code point. -/
def max : Nat := 0x10FFFF

/-- `U+` and at least four upper-case digits. -/
def display (n : Nat) : String :=
  "U+" ++ Hex.upper 4 n

/-- The numbers below this one fit in a 32-bit word. -/
def wordLimit : Nat := 0x100000000

/-- Reads a code point field: digits after at most one plus sign, with a value that fits in a
word. The value may lie beyond `max`. -/
def read? (field : List Char) : Option Nat :=
  let digits := match field with
    | '+' :: rest => rest
    | _ => field
  (Hex.value? digits).filter (· < wordLimit)

end CharRuns.CodePoint

namespace CharRuns

/-- An inclusive interval, empty when it ends below its start. -/
structure Interval where
  first : UInt32
  last : UInt32
  /-- The last number has been taken away. -/
  used : Bool
  deriving DecidableEq, Repr

namespace Interval

/-- The interval with given ends. -/
def between (first last : UInt32) : Interval :=
  { first, last, used := false }

/-- No number is left. -/
def isEmpty (i : Interval) : Bool :=
  i.used || decide (i.last < i.first)

theorem isEmpty_eq_false_iff {i : Interval} :
    i.isEmpty = false ↔ i.used = false ∧ i.first.toNat ≤ i.last.toNat := by
  rw [isEmpty, Bool.or_eq_false_iff, decide_eq_false_iff_not, UInt32.lt_iff_toNat_lt, Nat.not_lt]

/-- Takes the lowest number away, if there is one. -/
def dropFirst (i : Interval) : Interval :=
  if i.isEmpty then i
  else if i.first < i.last then { i with first := i.first + 1 }
  else { i with used := true }

/-- Takes away the lowest `n` numbers, or all if they are fewer. -/
def drop (i : Interval) : Nat → Interval
  | 0 => i
  | n + 1 => i.dropFirst.drop n

end Interval

/-- A position in an inclusive interval. -/
@[ext]
structure Cursor where
  next : UInt32
  last : UInt32
  /-- Nothing is left to give. -/
  drained : Bool
  deriving DecidableEq, Repr

namespace Cursor

/-- At the start of what is left of an interval. -/
def ofInterval (i : Interval) : Cursor :=
  { next := i.first, last := i.last, drained := i.isEmpty }

/-- At the start of the code space. -/
def codeSpace : Cursor :=
  ofInterval (.between 0 (UInt32.ofNat CodePoint.max))

/-- How many values are left. -/
def remaining (c : Cursor) : Nat :=
  if c.drained then 0 else (c.last - c.next).toNat + 1

/-- Gives the next value, if there is one, and the cursor behind it. -/
def advance (c : Cursor) : Option UInt32 × Cursor :=
  if c.drained then (none, c)
  else if c.next = c.last then (some c.next, { c with drained := true })
  else (some c.next, { c with next := c.next + 1 })

/-- Passes over `n` values, or over all that are left if these are fewer. -/
def skip (c : Cursor) (n : Nat) : Cursor :=
  if c.drained then c
  else if n < c.remaining then { c with next := c.next + UInt32.ofNat n }
  else { c with next := c.last, drained := true }

/-- Passes over `n` values and gives the next, if there is one. -/
def nth (c : Cursor) (n : Nat) : Option UInt32 × Cursor :=
  (c.skip n).advance

theorem toNat_sub_succ {a b : UInt32} (h : b ≠ a) : (a - (b + 1)).toNat + 1 = (a - b).toNat := by
  have hne : b.toNat ≠ a.toNat := fun e => h (UInt32.toNat_inj.1 e)
  have ha := a.toNat_lt
  have hb := b.toNat_lt
  simp only [UInt32.toNat_sub, UInt32.toNat_add, UInt32.toNat_one]
  omega

theorem remaining_of_advance {c c' : Cursor} {v : UInt32} (h : c.advance = (some v, c')) :
    c'.remaining + 1 = c.remaining := by
  unfold advance at h
  split at h
  · cases h
  · rename_i hd
    split at h
    · rename_i hl
      cases h
      simp [remaining, hd, hl]
    · rename_i hl
      cases h
      simp [remaining, hd, toNat_sub_succ hl]

/-- Gives all values that are left to `f`, in order. -/
def foldl {β : Type _} (f : β → UInt32 → β) (b : β) (c : Cursor) : β × Cursor :=
  match _ : c.advance with
  | (none, c') => (b, c')
  | (some v, c') => foldl f (f b v) c'
termination_by c.remaining
decreasing_by
  have := remaining_of_advance ‹_›
  omega

end Cursor

end CharRuns
