import CharRuns.Classifier
import CharRuns.Proofs.Boundary

/-!
# Overrides and categories

The overrides of a classifier ascend, so the search finds the one for a code point, if there is one
(`overrideAt?_eq_find?`). They declare the rules of their categories, so the code point gets the
rule declared, and any other the rule of its own category (`classify_eq`).
-/

namespace CharRuns.Classifier

theorem filter_find?_not_lt (n : Nat) : ∀ {overrides : List Override},
    overrides.Pairwise (fun a b => a.codePoint < b.codePoint) →
      (overrides.find? fun o => !decide (o.codePoint < n)).filter (·.codePoint = n)
        = overrides.find? (·.codePoint = n)
  | [], _ => rfl
  | o :: overrides, h => by
    obtain ⟨ho, hoverrides⟩ := List.pairwise_cons.1 h
    rcases Nat.lt_trichotomy o.codePoint n with hlt | heq | hgt
    · have ih := filter_find?_not_lt n hoverrides
      rw [List.find?_cons_of_neg (by simpa using hlt), ih,
        List.find?_cons_of_neg (by simpa using hlt.ne)]
    · rw [List.find?_cons_of_pos (by simp [heq]), List.find?_cons_of_pos (by simpa using heq),
        Option.filter_some, if_pos (by simpa using heq)]
    · -- The code point lies before `o`, and so before all overrides left.
      have hnone : overrides.find? (·.codePoint = n) = none := by
        refine List.find?_eq_none.2 fun a ha => ?_
        have := ho a ha
        simp only [decide_eq_true_eq]
        omega
      rw [List.find?_cons_of_pos (by simpa using hgt.le),
        List.find?_cons_of_neg (by simpa using hgt.ne'), hnone, Option.filter_some,
        if_neg (by simpa using hgt.ne')]

theorem overrideAt?_eq_find? (c : Classifier) (n : Nat) :
    c.overrideAt? n = c.overrides.toList.find? (·.codePoint = n) := by
  have hpart : Search.Partitioned (fun o : Override => decide (o.codePoint < n))
      c.overrides.toList := by
    refine c.acceptable.ascend.imp fun {a b} hab hb => ?_
    simp only [decide_eq_true_eq] at hb ⊢
    omega
  rw [overrideAt?, Search.getElem?_boundary hpart, filter_find?_not_lt n c.acceptable.ascend]

theorem mem_of_overrideAt?_eq_some {c : Classifier} {n : Nat} {o : Override}
    (h : c.overrideAt? n = some o) : o ∈ c.overrides.toList ∧ o.codePoint = n := by
  unfold overrideAt? at h
  obtain ⟨hget, hcode⟩ := Option.filter_eq_some_iff.1 h
  exact ⟨Array.mem_toList_iff.2 (Array.mem_of_getElem? hget), by simpa using hcode⟩

/-- An override settles the rule of its code point, and the category that of any other. -/
theorem classify_eq (c : Classifier) (n : Nat) (category : Option Category) :
    c.classify n category = match c.overrideAt? n with
      | some o => some o.rule
      | none => category.bind Category.rule? := by
  rw [classify]
  cases ho : c.overrideAt? n with
  | none => rfl
  | some o => exact c.acceptable.agree o (mem_of_overrideAt?_eq_some ho).1

theorem requireAssigned_eq_ok_iff {c : Classifier} {db : Database} :
    c.requireAssigned db = .ok () ↔
      ∀ o ∈ c.overrides.toList, (db.characterAt? o.codePoint).isSome = true := by
  rw [requireAssigned, ← Array.find?_toList]
  constructor
  · intro h
    split at h
    · cases h
    · rename_i hnone
      simpa [Option.isSome_iff_ne_none] using hnone
  · intro h
    have hnone : c.overrides.toList.find? (fun o => (db.characterAt? o.codePoint).isNone)
        = none := by
      simpa [Option.isSome_iff_ne_none] using h
    rw [hnone]

/-- The lowest override whose code point is unassigned. -/
structure FirstUnassigned (c : Classifier) (db : Database) (o : Override) : Prop where
  mem : o ∈ c.overrides.toList
  unassigned : db.characterAt? o.codePoint = none
  lowest : ∀ p ∈ c.overrides.toList, db.characterAt? p.codePoint = none → o.codePoint ≤ p.codePoint

theorem find?_eq_some_iff_lowest {p : Override → Bool} {o : Override} :
    ∀ {overrides : List Override}, overrides.Pairwise (fun a b => a.codePoint < b.codePoint) →
      (overrides.find? p = some o
        ↔ o ∈ overrides ∧ p o = true ∧ ∀ a ∈ overrides, p a = true → o.codePoint ≤ a.codePoint)
  | [], _ => by simp
  | b :: overrides, h => by
    obtain ⟨hb, hoverrides⟩ := List.pairwise_cons.1 h
    by_cases hp : p b = true
    · rw [List.find?_cons_of_pos hp]
      constructor
      · rintro ⟨⟩
        refine ⟨List.mem_cons_self, hp, List.forall_mem_cons.2 ⟨fun _ => le_rfl, fun a ha _ => ?_⟩⟩
        exact (hb a ha).le
      · rintro ⟨ho, -, hlowest⟩
        rcases List.mem_cons.1 ho with rfl | ho
        · rfl
        · exact absurd (hlowest b List.mem_cons_self hp) (hb o ho).not_ge
    · rw [List.find?_cons_of_neg hp, find?_eq_some_iff_lowest hoverrides]
      constructor
      · rintro ⟨ho, hpo, hlowest⟩
        exact ⟨List.mem_cons_of_mem _ ho, hpo,
          List.forall_mem_cons.2 ⟨fun hpb => absurd hpb hp, hlowest⟩⟩
      · rintro ⟨ho, hpo, hlowest⟩
        rcases List.mem_cons.1 ho with rfl | ho
        · exact absurd hpo hp
        · exact ⟨ho, hpo, (List.forall_mem_cons.1 hlowest).2⟩

theorem requireAssigned_eq_error_iff {c : Classifier} {db : Database} {fault : Fault} :
    c.requireAssigned db = .error fault ↔
      ∃ o, c.FirstUnassigned db o ∧ fault = .unassigned o.codePoint o.rule := by
  have hfind (o : Override) : c.overrides.toList.find?
      (fun o => (db.characterAt? o.codePoint).isNone) = some o ↔ c.FirstUnassigned db o := by
    rw [find?_eq_some_iff_lowest c.acceptable.ascend]
    simp only [Option.isNone_iff_eq_none]
    exact ⟨fun ⟨h₁, h₂, h₃⟩ => ⟨h₁, h₂, h₃⟩, fun ⟨h₁, h₂, h₃⟩ => ⟨h₁, h₂, h₃⟩⟩
  simp only [← hfind]
  rw [requireAssigned, ← Array.find?_toList]
  split
  · rename_i o ho
    rw [ho]
    constructor
    · rintro ⟨⟩
      exact ⟨o, rfl, rfl⟩
    · rintro ⟨_, ⟨⟩, rfl⟩
      rfl
  · rename_i hnone
    rw [hnone]
    simp

theorem standardFor_eq_ok {db : Database}
    (h : ∀ o ∈ Override.standard, (db.characterAt? o.codePoint).isSome = true) :
    standardFor db = .ok standard := by
  rw [standardFor, requireAssigned_eq_ok_iff.2 h]

theorem classify_standard (n : Nat) (category : Option Category) :
    standard.classify n category = match Override.standard.find? (·.codePoint = n) with
      | some o => some o.rule
      | none => category.bind Category.rule? := by
  rw [classify_eq, overrideAt?_eq_find?]
  rfl

end CharRuns.Classifier
