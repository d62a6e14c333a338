import CharRuns.Run
import Mathlib.Algebra.Group.Nat.Defs

/-!
# Fields of a packed word

In numbers, a packed run is the start, plus the length above 21 bits, plus the rule code above 30
(`toNat_pack`), and any word is put together from its three fields in this way (`toNat_eq_fields`).
Unpacking makes a run of the fields (`unpack_eq`), so that of a packed run gives the run back
(`unpack_pack`).
-/

namespace CharRuns.Run

/-- The number in `width` bits of a word, from bit `low` upwards. -/
def field (word : UInt32) (low width : Nat) : Nat :=
  word.toNat / 2 ^ low % 2 ^ width

/-- The field that a start is read from. -/
def startField (word : UInt32) : Nat := field word 0 21

/-- The field that a length is read from. -/
def lengthField (word : UInt32) : Nat := field word 21 9

/-- The field that a rule code is read from. -/
def ruleField (word : UInt32) : Nat := field word 30 2

section Bits

variable {low width n : Nat}

theorem toNat_ofNat_mod (h : low < 32) : (UInt32.ofNat low).toNat % 32 = low := by
  have hsize : low < UInt32.size := Nat.lt_trans h (by decide)
  rw [UInt32.toNat_ofNat_of_lt' hsize, Nat.mod_eq_of_lt h]

/-- A number is moved up whole if there is room for it. -/
theorem toNat_shiftLeft (h : low < 32) (hroom : n * 2 ^ low < 2 ^ 32) :
    (UInt32.ofNat n <<< UInt32.ofNat low).toNat = n * 2 ^ low := by
  have hn : n < 2 ^ 32 := Nat.lt_of_le_of_lt (Nat.le_mul_of_pos_right n (Nat.two_pow_pos low)) hroom
  rw [UInt32.toNat_shiftLeft, toNat_ofNat_mod h, UInt32.toNat_ofNat_of_lt' hn, Nat.shiftLeft_eq,
    Nat.mod_eq_of_lt hroom]

theorem toNat_shiftRight (word : UInt32) (h : low < 32) :
    (word >>> UInt32.ofNat low).toNat = word.toNat / 2 ^ low := by
  rw [UInt32.toNat_shiftRight, toNat_ofNat_mod h, Nat.shiftRight_eq_div_pow]

theorem toNat_mask (h : width < 32) : (mask width).toNat = 2 ^ width - 1 := by
  have hroom : 1 * 2 ^ width < 2 ^ 32 := by
    rw [Nat.one_mul]
    exact Nat.pow_lt_pow_right (by decide) h
  have hbit : ((1 : UInt32) <<< UInt32.ofNat width).toNat = 2 ^ width := by
    rw [← Nat.one_mul (2 ^ width), ← toNat_shiftLeft h hroom]
    rfl
  have hone : (1 : UInt32) ≤ (1 : UInt32) <<< UInt32.ofNat width := by
    rw [UInt32.le_iff_toNat_le, hbit]
    exact Nat.two_pow_pos width
  rw [mask, UInt32.toNat_sub_of_le _ _ hone, hbit]
  rfl

theorem toNat_and_mask (word : UInt32) (h : width < 32) :
    (word &&& mask width).toNat = word.toNat % 2 ^ width := by
  rw [UInt32.toNat_and, toNat_mask h, Nat.and_two_pow_sub_one_eq_mod]

end Bits

theorem start_lt (r : Run) : r.start < 2 ^ 21 :=
  Nat.lt_of_le_of_lt r.start_le (by decide)

theorem length_lt (r : Run) : r.length < 2 ^ 9 :=
  Nat.lt_of_le_of_lt r.length_le (by decide)

theorem toNat_pack (r : Run) :
    r.pack.toNat = r.start + r.length * 2 ^ 21 + r.rule.code * 2 ^ 30 := by
  have hstart := r.start_lt
  have hlength := r.length_lt
  have hcode := r.rule.code_lt
  have hlow : r.length * 2 ^ 21 ||| r.start = r.length * 2 ^ 21 + r.start := by
    rw [Nat.mul_comm, Nat.two_pow_add_eq_or_of_lt hstart]
  have hhigh : r.rule.code * 2 ^ 30 ||| (r.length * 2 ^ 21 + r.start)
      = r.rule.code * 2 ^ 30 + (r.length * 2 ^ 21 + r.start) := by
    rw [Nat.mul_comm, Nat.two_pow_add_eq_or_of_lt (by omega)]
  have hstartBits : (UInt32.ofNat r.start).toNat = r.start :=
    UInt32.toNat_ofNat_of_lt' (Nat.lt_trans hstart (by decide))
  have hlengthBits : (UInt32.ofNat r.length <<< lengthShift).toNat = r.length * 2 ^ 21 :=
    toNat_shiftLeft (by decide) (show r.length * 2 ^ 21 < 2 ^ 32 by omega)
  have hruleBits : (UInt32.ofNat r.rule.code <<< ruleShift).toNat = r.rule.code * 2 ^ 30 :=
    toNat_shiftLeft (by decide) (show r.rule.code * 2 ^ 30 < 2 ^ 32 by omega)
  rw [pack, UInt32.toNat_or, UInt32.toNat_or, hstartBits, hlengthBits, hruleBits,
    Nat.or_comm r.start, hlow, Nat.or_comm, hhigh]
  omega

theorem toNat_eq_fields (word : UInt32) :
    word.toNat = startField word + lengthField word * 2 ^ 21 + ruleField word * 2 ^ 30 := by
  have := word.toNat_lt
  unfold startField lengthField ruleField field
  omega

theorem unpack_eq (word : UInt32) :
    unpack word = match Rule.ofCode? (ruleField word) with
      | none => .error (.unknownRule (ruleField word))
      | some rule => make (startField word) (lengthField word) rule := by
  have hstart : (word &&& mask startBits).toNat = startField word := by
    rw [toNat_and_mask word (by decide), startField, field, Nat.pow_zero, Nat.div_one]
    rfl
  have hlength : ((word >>> lengthShift) &&& mask lengthBits).toNat = lengthField word := by
    rw [toNat_and_mask _ (by decide), lengthShift, toNat_shiftRight word (by decide)]
    rfl
  have hcode : ((word >>> ruleShift) &&& mask ruleBits).toNat = ruleField word := by
    rw [toNat_and_mask _ (by decide), ruleShift, toNat_shiftRight word (by decide)]
    rfl
  rw [← hstart, ← hlength, ← hcode]
  rfl

theorem unpack_pack (r : Run) : unpack r.pack = .ok r := by
  have hstart := r.start_lt
  have hlength := r.length_lt
  have hcode := r.rule.code_lt
  have h₁ : startField r.pack = r.start := by rw [startField, field, toNat_pack]; omega
  have h₂ : lengthField r.pack = r.length := by rw [lengthField, field, toNat_pack]; omega
  have h₃ : ruleField r.pack = r.rule.code := by rw [ruleField, field, toNat_pack]; omega
  rw [unpack_eq, h₁, h₂, h₃, Rule.ofCode?_code]
  exact make_eq_ok r

end CharRuns.Run
