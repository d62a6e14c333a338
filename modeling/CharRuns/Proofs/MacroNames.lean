import CharRuns.Artifact
import Mathlib.Data.List.Basic

/-!
# What names a macro

A text names a macro if it is well formed. `isMacroName` looks at the first character and then at
the rest, and the two together say that there is a first character, that it is no digit, and that
every character is a letter, a digit or an underscore (`isMacroName_iff`).
-/

namespace CharRuns

namespace MacroName

/-- An ASCII letter, a digit or an underscore. -/
def IsNameChar (c : Char) : Prop :=
  ('a' ≤ c ∧ c ≤ 'z') ∨ ('A' ≤ c ∧ c ≤ 'Z') ∨ ('0' ≤ c ∧ c ≤ '9') ∨ c = '_'

instance (c : Char) : Decidable (IsNameChar c) :=
  inferInstanceAs (Decidable (_ ∨ _))

/-- Letters, digits and underscores, at least one of them, and no digit in front. -/
structure WellFormed (text : String) : Prop where
  ne_empty : text ≠ ""
  mem : ∀ c ∈ text.toList, IsNameChar c
  head : ∀ c ∈ text.toList.head?, ¬ ('0' ≤ c ∧ c ≤ '9')

variable {c : Char}

theorem isAlpha_iff : c.isAlpha = true ↔ ('a' ≤ c ∧ c ≤ 'z') ∨ ('A' ≤ c ∧ c ≤ 'Z') := by
  change (decide ('A' ≤ c ∧ c ≤ 'Z') || (decide ('a' ≤ c) && decide (c ≤ 'z'))) = true ↔ _
  simp only [Bool.or_eq_true, Bool.and_eq_true, decide_eq_true_eq]
  exact or_comm

theorem isDigit_iff : c.isDigit = true ↔ '0' ≤ c ∧ c ≤ '9' := by
  change (decide ('0' ≤ c) && decide (c ≤ '9')) = true ↔ _
  simp only [Bool.and_eq_true, decide_eq_true_eq]

theorem not_digit_of_isAlpha (h : c.isAlpha = true) : ¬ ('0' ≤ c ∧ c ≤ '9') := by
  rintro ⟨-, hnine⟩
  rcases isAlpha_iff.1 h with ⟨ha, -⟩ | ⟨ha, -⟩
  · exact absurd (Char.le_trans ha hnine) (by decide)
  · exact absurd (Char.le_trans ha hnine) (by decide)

theorem isNameChar_iff : (c == '_' || c.isAlphanum) = true ↔ IsNameChar c := by
  rw [Bool.or_eq_true, beq_iff_eq, Char.isAlphanum, Bool.or_eq_true, isAlpha_iff, isDigit_iff,
    or_comm, or_assoc, or_assoc]
  rfl

theorem isNameStart_iff :
    (c == '_' || c.isAlpha) = true ↔ IsNameChar c ∧ ¬ ('0' ≤ c ∧ c ≤ '9') := by
  rw [Bool.or_eq_true, beq_iff_eq]
  constructor
  · rintro (rfl | h)
    · decide
    · exact ⟨(isAlpha_iff.1 h).imp_right .inl, not_digit_of_isAlpha h⟩
  · rintro ⟨h | h | h | h, hdigit⟩
    · exact .inr (isAlpha_iff.2 (.inl h))
    · exact .inr (isAlpha_iff.2 (.inr h))
    · exact absurd h hdigit
    · exact .inl h

end MacroName

open MacroName in
theorem isMacroName_iff (text : String) : isMacroName text = true ↔ WellFormed text := by
  unfold isMacroName
  rcases hchars : text.toList with _ | ⟨c, cs⟩
  · constructor
    · intro h
      cases h
    · intro h
      exact absurd (String.toList_eq_nil_iff.1 hchars) h.ne_empty
  · have hne : text ≠ "" := fun h => by simp [h] at hchars
    simp only [Bool.and_eq_true, List.all_eq_true, isNameStart_iff, isNameChar_iff]
    constructor
    · rintro ⟨⟨hc, hdigit⟩, hcs⟩
      refine ⟨hne, ?_, ?_⟩
      · rw [hchars]
        exact List.forall_mem_cons.2 ⟨hc, hcs⟩
      · rw [hchars]
        rintro _ ⟨⟩
        exact hdigit
    · rintro ⟨-, hmem, hhead⟩
      rw [hchars] at hmem hhead
      obtain ⟨hc, hcs⟩ := List.forall_mem_cons.1 hmem
      exact ⟨⟨hc, hhead c rfl⟩, hcs⟩

end CharRuns
