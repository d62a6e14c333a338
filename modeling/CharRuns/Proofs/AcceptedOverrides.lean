import CharRuns.Proofs.Overrides

/-!
# Overrides that are accepted

A list of overrides is accepted just if it ascends in the code space and every category in it has
the rule declared with it (`ofOverrides_eq_ok_iff`). A classifier never looks at the declared rules;
it searches for an override and takes the rule of its category. Because the list ascends the search
misses none, and because the rules agree it gives the declared one (`classify_of_ofOverrides`).
-/

namespace CharRuns.Classifier

variable {overrides : List Override} {o : Override} {previous : Option Nat} {c : Classifier}
  {fault : Fault}

theorem checkOverride_eq_ok_iff : checkOverride previous o = .ok ()
    ↔ (∀ p ∈ previous, p < o.codePoint)
      ∧ o.codePoint ≤ CodePoint.max ∧ o.category.rule? = some o.rule := by
  refine ⟨checkOverride_eq_ok, fun ⟨hbehind, hmax, hagree⟩ => ?_⟩
  have hnone : previous.filter (o.codePoint ≤ ·) = none :=
    Option.filter_eq_none_iff.2 fun p hp => by simpa using hbehind p hp
  simp only [checkOverride, if_neg hmax.not_gt, hnone, if_pos hagree]

/-- Overrides pass if they are acceptable and all lie behind the one in front of them. -/
theorem checkOverrides_eq_ok_iff : ∀ {previous : Option Nat} {overrides : List Override},
    checkOverrides previous overrides = .ok ()
      ↔ (∀ p ∈ previous, ∀ o ∈ overrides, p < o.codePoint) ∧ Acceptable overrides
  | _, [] => ⟨checkOverrides_eq_ok, fun _ => rfl⟩
  | previous, o :: overrides => by
    refine ⟨checkOverrides_eq_ok, fun ⟨hbehind, hmax, hascend, hagree⟩ => ?_⟩
    obtain ⟨ho, hoverrides⟩ := List.forall_mem_cons.1 hmax
    obtain ⟨hafter, hascend⟩ := List.pairwise_cons.1 hascend
    obtain ⟨hrule, hagree⟩ := List.forall_mem_cons.1 hagree
    have hcheck : checkOverride previous o = .ok () :=
      checkOverride_eq_ok_iff.2 ⟨fun p hp => hbehind p hp o List.mem_cons_self, ho, hrule⟩
    have hnext : ∀ p ∈ some o.codePoint, ∀ a ∈ overrides, p < a.codePoint := by
      rintro _ ⟨⟩ a ha
      exact hafter a ha
    rw [checkOverrides, hcheck]
    exact checkOverrides_eq_ok_iff.2 ⟨hnext, hoverrides, hascend, hagree⟩

theorem checkOverrides_none_eq_ok_iff :
    checkOverrides none overrides = .ok () ↔ Acceptable overrides := by
  rw [checkOverrides_eq_ok_iff]
  exact and_iff_right nofun

theorem ofOverrides_eq_error_iff_check :
    ofOverrides overrides = .error fault ↔ checkOverrides none overrides = .error fault := by
  unfold ofOverrides
  split
  · rename_i hcheck
    rw [hcheck, Except.error.injEq, Except.error.injEq]
  · rename_i hcheck
    simp [hcheck]

theorem ofOverrides_eq_ok_iff :
    ofOverrides overrides = .ok c ↔ Acceptable overrides ∧ c.overrides.toList = overrides := by
  unfold ofOverrides
  split
  · rename_i hcheck
    rw [← checkOverrides_none_eq_ok_iff, hcheck]
    simp
  · rename_i hcheck
    rw [and_iff_right (checkOverrides_none_eq_ok_iff.1 hcheck), Except.ok.injEq]
    constructor
    · rintro rfl
      rfl
    · rintro rfl
      rfl

theorem ofOverrides_standard : ofOverrides Override.standard = .ok standard :=
  ofOverrides_eq_ok_iff.2 ⟨standard.acceptable, rfl⟩

/-- In ascending overrides the ones for a code point are one or none. -/
theorem filter_eq_toList_find? (n : Nat)
    (h : overrides.Pairwise fun a b => a.codePoint < b.codePoint) :
    overrides.filter (·.codePoint = n) = (overrides.find? (·.codePoint = n)).toList := by
  refine Search.filter_eq_toList_find? (h.imp fun {a b} hab ha hb => ?_)
  simp only [decide_eq_true_eq] at ha hb
  omega

/-- A classifier made of a list of overrides finds in it the one for a code point, if the list has
one, and there is no other. The code point then has the rule declared there, whatever its category
and also if it has none. Any other code point has the rule of its category. -/
theorem classify_of_ofOverrides (h : ofOverrides overrides = .ok c) (n : Nat)
    (category : Option Category) :
    overrides.filter (·.codePoint = n) = (c.overrideAt? n).toList
      ∧ (∀ o ∈ overrides, o.codePoint = n →
        c.overrideAt? n = some o ∧ c.classify n category = some o.rule)
      ∧ ((∀ o ∈ overrides, o.codePoint ≠ n) →
        c.overrideAt? n = none ∧ c.classify n category = category.bind Category.rule?) := by
  obtain ⟨-, rfl⟩ := ofOverrides_eq_ok_iff.1 h
  have hat := c.overrideAt?_eq_find? n
  have honly := filter_eq_toList_find? n c.acceptable.ascend
  rw [← hat] at honly
  rw [classify_eq]
  refine ⟨honly, fun o ho hn => ?_, fun hnone => ?_⟩
  · have hfound : c.overrideAt? n = some o := by
      rw [← Option.mem_toList, ← honly]
      exact List.mem_filter.2 ⟨ho, by simpa using hn⟩
    exact ⟨hfound, by rw [hfound]⟩
  · have hfound : c.overrideAt? n = none := by
      rw [hat]
      exact List.find?_eq_none.2 fun o ho => by simpa using hnone o ho
    exact ⟨hfound, by rw [hfound]⟩

/-- Three overrides, of which the last is for the code point and replaces no category. -/
theorem classify_of_ofOverrides_unassigned :
    let dollar : Override := ⟨0x24, .otherLetter, .identifierStart⟩
    let space : Override := ⟨0xA0, .spaceSeparator, .whitespace⟩
    let joiner : Override := ⟨0x200D, .spacingMark, .identifierPart⟩
    let overrides := [dollar, space, joiner]
    let c : Classifier := ⟨overrides.toArray, by decide⟩
    ofOverrides overrides = .ok c
      ∧ overrides.filter (·.codePoint = 0x200D) = (c.overrideAt? 0x200D).toList
      ∧ (∀ o ∈ overrides, o.codePoint = 0x200D →
        c.overrideAt? 0x200D = some o ∧ c.classify 0x200D none = some o.rule)
      ∧ ((∀ o ∈ overrides, o.codePoint ≠ 0x200D) →
        c.overrideAt? 0x200D = none
          ∧ c.classify 0x200D none = (none : Option Category).bind Category.rule?) := by
  intro dollar space joiner overrides c
  have haccepted : ofOverrides overrides = .ok c := ofOverrides_eq_ok_iff.2 ⟨c.acceptable, rfl⟩
  exact ⟨haccepted, classify_of_ofOverrides haccepted 0x200D none⟩

end CharRuns.Classifier
