import CharRuns.CodePoint
import Mathlib.Data.List.Forall2
import Mathlib.Tactic.IntervalCases

/-!
# Numerals in base sixteen and ten

`IsNumeral digits n` says what it means that digits write a number, in either case of the letters.
`Hex.value?` reads the numerals and nothing else (`value?_eq_some_iff`), and the digits that
`Hex.upper` writes are a numeral (`isNumeral_upper`). `Decimal.value?` reads what is written in base
ten.
-/

namespace CharRuns.Hex

/-- `c` is the digit for `d`, in lower or upper case. -/
def IsDigit (c : Char) (d : Nat) : Prop :=
  d < 16 ∧ (c = Nat.digitChar d ∨ c = (Nat.digitChar d).toUpper)

instance (c : Char) (d : Nat) : Decidable (IsDigit c d) :=
  inferInstanceAs (Decidable (_ ∧ _))

/-- The digits, of which there is at least one, write `n`. -/
def IsNumeral (digits : List Char) (n : Nat) : Prop :=
  digits ≠ [] ∧ ∃ ds : List Nat, List.Forall₂ IsDigit digits ds
    ∧ ds.foldl (fun m d => 16 * m + d) 0 = n

theorem isDigit_of_digit?_ofNat :
    ∀ k < 103, ∀ d ∈ digit? (Char.ofNat k), IsDigit (Char.ofNat k) d := by
  decide

theorem digit?_eq_some_iff {c : Char} {d : Nat} : digit? c = some d ↔ IsDigit c d := by
  constructor
  · intro h
    have hc : c.toNat < 103 := by
      unfold digit? at h
      simp only [Char.le_def, UInt32.le_iff_toNat_le] at h
      by_contra hc
      have hge : 103 ≤ c.val.toNat := not_lt.1 hc
      split_ifs at h with h₁ h₂ h₃
      · exact absurd (hge.trans h₁.2) (by decide)
      · exact absurd (hge.trans h₂.2) (by decide)
      · exact absurd (hge.trans h₃.2) (by decide)
    have := isDigit_of_digit?_ofNat c.toNat hc d
    rw [Char.ofNat_toNat] at this
    exact this h
  · rintro ⟨hd, h⟩
    interval_cases d <;> rcases h with rfl | rfl <;> rfl

theorem extend?_eq_some_iff : ∀ {cs : List Char} {n m : Nat}, extend? n cs = some m ↔
    ∃ ds : List Nat, List.Forall₂ IsDigit cs ds ∧ ds.foldl (fun m d => 16 * m + d) n = m
  | [], n, m => by simp [extend?]
  | c :: cs, n, m => by
    simp only [extend?, Option.bind_eq_some_iff, digit?_eq_some_iff, extend?_eq_some_iff]
    constructor
    · rintro ⟨d, hd, ds, hds, hm⟩
      exact ⟨d :: ds, .cons hd hds, hm⟩
    · rintro ⟨_, hall, hm⟩
      obtain ⟨d, ds, hd, hds, rfl⟩ := List.forall₂_cons_left_iff.1 hall
      exact ⟨d, hd, ds, hds, hm⟩

/-- The reader accepts the numerals. -/
theorem value?_eq_some_iff {cs : List Char} {n : Nat} : value? cs = some n ↔ IsNumeral cs n := by
  cases cs with
  | nil => simp [value?, IsNumeral]
  | cons c cs =>
    rw [value?, extend?_eq_some_iff, IsNumeral, and_iff_right (List.cons_ne_nil c cs)]
    simp

theorem IsDigit.toUpper {c : Char} {d : Nat} (h : IsDigit c d) : IsDigit c.toUpper d := by
  obtain ⟨hd, hc⟩ := h
  interval_cases d <;> rcases hc with rfl | rfl <;> decide

theorem isNumeral_toDigits (n : Nat) : IsNumeral (Nat.toDigits 16 n) n := by
  refine ⟨Nat.toDigits_ne_nil, ?_⟩
  induction n using Nat.strongRecOn with
  | ind n ih =>
    rw [Nat.toDigits_eq_if (by decide)]
    split_ifs with hn
    · exact ⟨[n], .cons ⟨hn, .inl rfl⟩ .nil, by simp⟩
    · obtain ⟨ds, hds, hvalue⟩ := ih (n / 16) (by omega)
      refine ⟨ds ++ [n % 16], List.rel_append hds (.cons ⟨by omega, .inl rfl⟩ .nil), ?_⟩
      rw [List.foldl_append, hvalue]
      exact Nat.div_add_mod n 16

theorem IsNumeral.not_mem {cs : List Char} {n : Nat} (h : IsNumeral cs n) {c : Char}
    (hc : digit? c = none) : c ∉ cs := by
  obtain ⟨-, ds, hds, -⟩ := h
  induction hds with
  | nil => exact List.not_mem_nil
  | cons hd _ ih =>
    intro hmem
    rcases List.mem_cons.1 hmem with rfl | hmem
    · rw [← digit?_eq_some_iff, hc] at hd
      cases hd
    · exact ih hmem

theorem IsNumeral.leftpad {cs : List Char} {n : Nat} (h : IsNumeral cs n) (width : Nat) :
    IsNumeral (cs.leftpad width '0') n := by
  obtain ⟨hcs, ds, hds, hvalue⟩ := h
  have hzeros (k : Nat) : List.Forall₂ IsDigit (List.replicate k '0') (List.replicate k 0)
      ∧ (List.replicate k 0).foldl (fun m d => 16 * m + d) 0 = 0 := by
    induction k with
    | zero => exact ⟨.nil, rfl⟩
    | succ k ih => exact ⟨.cons (by decide) ih.1, ih.2⟩
  refine ⟨by simp [List.leftpad, hcs], List.replicate (width - cs.length) 0 ++ ds, ?_, ?_⟩
  · exact List.rel_append (hzeros _).1 hds
  · rw [List.foldl_append, (hzeros _).2, hvalue]

theorem IsNumeral.map_toUpper {cs : List Char} {n : Nat} (h : IsNumeral cs n) :
    IsNumeral (cs.map Char.toUpper) n := by
  obtain ⟨hcs, ds, hds, hvalue⟩ := h
  refine ⟨by simpa using hcs, ds, ?_, hvalue⟩
  exact List.forall₂_map_left_iff.2 (hds.imp fun _ _ h => h.toUpper)

theorem isNumeral_digits (width n : Nat) : IsNumeral (digits width n) n :=
  (isNumeral_toDigits n).leftpad width

theorem isNumeral_upper (width n : Nat) : IsNumeral (upper width n).toList n := by
  rw [upper, String.toList_ofList]
  exact (isNumeral_digits width n).map_toUpper

theorem IsDigit.isAlphanum {c : Char} {d : Nat} (h : IsDigit c d) : c.isAlphanum = true := by
  obtain ⟨hd, hc⟩ := h
  interval_cases d <;> rcases hc with rfl | rfl <;> rfl

theorem IsNumeral.isAlphanum {cs : List Char} {n : Nat} (h : IsNumeral cs n) :
    ∀ c ∈ cs, c.isAlphanum = true := by
  obtain ⟨-, ds, hds, -⟩ := h
  induction hds with
  | nil => simp
  | cons hd _ ih => exact List.forall_mem_cons.2 ⟨hd.isAlphanum, ih⟩

theorem length_upper {width n : Nat} (hwidth : 0 < width) (hn : n < 16 ^ width) :
    (upper width n).toList.length = width := by
  have := (Nat.length_toDigits_le_iff (b := 16) (by decide) hwidth).2 hn
  simp only [upper, digits, String.toList_ofList, List.length_map, List.length_leftpad]
  omega

end CharRuns.Hex

namespace CharRuns.Decimal

/-- The number that decimal digits write, of which there is at least one. -/
def value? (digits : List Char) : Option Nat :=
  if digits ≠ [] ∧ digits.all Char.isDigit = true then some (Nat.ofDigitChars 10 digits 0) else none

theorem value?_toDigits (n : Nat) : value? (Nat.toDigits 10 n) = some n := by
  have hdigits : (Nat.toDigits 10 n).all Char.isDigit = true := List.all_eq_true.2 fun c hc =>
    Nat.isDigit_of_mem_toDigits (by decide) (by decide) hc
  rw [value?, if_pos ⟨Nat.toDigits_ne_nil, hdigits⟩, Nat.ofDigitChars_ten_toDigits]

theorem isAlphanum_of_value? {digits : List Char} {n : Nat} (h : value? digits = some n) :
    ∀ c ∈ digits, c.isAlphanum = true := by
  unfold value? at h
  split_ifs at h with hdigits
  exact fun c hc => by rw [Char.isAlphanum, List.all_eq_true.1 hdigits.2 c hc, Bool.or_true]

end CharRuns.Decimal
