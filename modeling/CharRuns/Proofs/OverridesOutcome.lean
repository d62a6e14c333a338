import CharRuns.Proofs.AcceptedOverrides
import Mathlib.Data.List.Induction

/-!
# What a list of overrides comes to

Each override is checked behind the one in front of it: that it lies in the code space, that it
exceeds that one, and that its category has the rule declared, in this order
(`checkOverride_eq_error_iff`). A list that is not acceptable is refused for the first override that
fails, behind a list that is (`acceptable_or_firstUnfit`). Of the overrides that a database leaves
unassigned a classifier reports the first, which is the lowest, for they ascend
(`ofOverrides_outcome`).
-/

namespace CharRuns.Classifier

/-- Why an override may not stand behind one for the code point `previous`. Each reason is given
where those before it do not apply. -/
inductive Unfit (previous : Option Nat) (o : Override) : Fault → Prop where
  | outOfRange (h : CodePoint.max < o.codePoint) : Unfit previous o (.outOfRange o.codePoint)
  | outOfOrder {p : Nat} (hmax : o.codePoint ≤ CodePoint.max) (hprevious : previous = some p)
      (h : o.codePoint ≤ p) : Unfit previous o (.outOfOrder p o.codePoint)
  | mismatch (hmax : o.codePoint ≤ CodePoint.max) (hbehind : ∀ p ∈ previous, p < o.codePoint)
      (h : o.category.rule? ≠ some o.rule) :
      Unfit previous o (.mismatch o.codePoint o.category o.rule o.category.rule?)

/-- Why the first override that is unfit may not stand behind the one in front of it. -/
def FirstUnfit (overrides : List Override) (fault : Fault) : Prop :=
  ∃ front o back, overrides = front ++ o :: back ∧ Acceptable front
    ∧ Unfit (front.getLast?.map (·.codePoint)) o fault

variable {overrides front : List Override} {o : Override} {previous : Option Nat} {fault : Fault}

theorem checkOverride_eq_error_iff :
    checkOverride previous o = .error fault ↔ Unfit previous o fault := by
  constructor
  · intro h
    unfold checkOverride at h
    split at h
    · rename_i hmax
      cases h
      exact .outOfRange hmax
    · rename_i hmax
      split at h
      · rename_i p hp
        cases h
        obtain ⟨hprevious, hle⟩ := Option.filter_eq_some_iff.1 hp
        exact .outOfOrder (not_lt.1 hmax) hprevious (by simpa using hle)
      · rename_i hnone
        split at h
        · cases h
        · rename_i hagree
          cases h
          refine .mismatch (not_lt.1 hmax) (fun p hp => ?_) hagree
          simpa using Option.filter_eq_none_iff.1 hnone p hp
  · rintro (hmax | ⟨hmax, rfl, hle⟩ | ⟨hmax, hbehind, hagree⟩)
    · exact if_pos hmax
    · simp only [checkOverride, if_neg hmax.not_gt, Option.filter_some, hle, decide_true, if_true]
    · have hnone : previous.filter (o.codePoint ≤ ·) = none :=
        Option.filter_eq_none_iff.2 fun p hp => by simpa using hbehind p hp
      simp only [checkOverride, if_neg hmax.not_gt, hnone, if_neg hagree]

/-- Behind overrides that pass, the rest is checked as behind the last of them. -/
theorem checkOverrides_append : ∀ {previous : Option Nat} {front : List Override},
    checkOverrides previous front = .ok () → ∀ back, checkOverrides previous (front ++ back)
      = checkOverrides ((front.getLast?.map (·.codePoint)).or previous) back
  | previous, [], _, back => rfl
  | previous, o :: front, h, back => by
    have hlast : ((o :: front).getLast?.map (·.codePoint)).or previous
        = (front.getLast?.map (·.codePoint)).or (some o.codePoint) := by
      rw [List.getLast?_cons]
      cases front.getLast? <;> rfl
    rw [List.cons_append, checkOverrides, hlast]
    rw [checkOverrides] at h
    rcases hcheck : checkOverride previous o with refused | ⟨⟩
    · rw [hcheck] at h
      cases h
    · rw [hcheck] at h
      exact checkOverrides_append h back

theorem FirstUnfit.append (h : FirstUnfit overrides fault) (more : List Override) :
    FirstUnfit (overrides ++ more) fault := by
  obtain ⟨front, o, back, rfl, hfront, ho⟩ := h
  exact ⟨front, o, back ++ more, by simp, hfront, ho⟩

theorem acceptable_or_firstUnfit (overrides : List Override) :
    Acceptable overrides ∨ ∃ fault, FirstUnfit overrides fault := by
  induction overrides using List.reverseRecOn with
  | nil => exact .inl ⟨by simp, .nil, by simp⟩
  | append_singleton front o ih =>
    rcases ih with hfront | ⟨fault, hfault⟩
    · rcases hcheck : checkOverride (front.getLast?.map (·.codePoint)) o with fault | ⟨⟩
      · exact .inr ⟨fault, front, o, [], rfl, hfront, checkOverride_eq_error_iff.1 hcheck⟩
      · left
        rw [← checkOverrides_none_eq_ok_iff] at hfront ⊢
        rw [checkOverrides_append hfront, Option.or_none, checkOverrides, hcheck]
        rfl
    · exact .inr ⟨fault, hfault.append [o]⟩

theorem ofOverrides_of_firstUnfit (h : FirstUnfit overrides fault) :
    ofOverrides overrides = .error fault := by
  obtain ⟨front, o, back, rfl, hfront, ho⟩ := h
  rw [ofOverrides_eq_error_iff_check,
    checkOverrides_append (checkOverrides_none_eq_ok_iff.2 hfront), Option.or_none, checkOverrides,
    checkOverride_eq_error_iff.2 ho]

theorem ofOverrides_eq_error_iff :
    ofOverrides overrides = .error fault ↔ FirstUnfit overrides fault := by
  refine ⟨fun herror => ?_, ofOverrides_of_firstUnfit⟩
  rcases acceptable_or_firstUnfit overrides with h | ⟨found, h⟩
  · rw [ofOverrides_eq_error_iff_check, checkOverrides_none_eq_ok_iff.2 h] at herror
    cases herror
  · rw [ofOverrides_of_firstUnfit h] at herror
    cases herror
    exact h

example : ofOverrides [⟨0x24, .otherLetter, .identifierStart⟩, ⟨0x24, .otherLetter, .whitespace⟩,
    ⟨0x110000, .otherLetter, .identifierStart⟩] = .error (.outOfOrder 0x24 0x24) := by
  rfl

/-- A list of overrides is kept as it is if it ascends in the code space and every category in it
has the rule declared with it. If not, it is refused for the first override that may not stand
behind the one in front of it. A classifier accepts a database just if this assigns all code points
in the list, and otherwise tells the lowest that is unassigned and the rule declared there. -/
theorem ofOverrides_outcome (overrides : List Override) :
    (∀ c, ofOverrides overrides = .ok c ↔ Acceptable overrides ∧ c.overrides.toList = overrides)
      ∧ (∀ fault, ofOverrides overrides = .error fault ↔ FirstUnfit overrides fault)
      ∧ ∀ c, ofOverrides overrides = .ok c → ∀ db : Database,
        (c.requireAssigned db = .ok ()
          ↔ ∀ o ∈ overrides, (db.characterAt? o.codePoint).isSome = true)
        ∧ ∀ fault, c.requireAssigned db = .error fault
          ↔ ∃ o ∈ overrides, db.characterAt? o.codePoint = none
            ∧ (∀ a ∈ overrides, db.characterAt? a.codePoint = none → o.codePoint ≤ a.codePoint)
            ∧ fault = .unassigned o.codePoint o.rule := by
  refine ⟨fun c => ofOverrides_eq_ok_iff, fun fault => ofOverrides_eq_error_iff,
    fun c haccepted db => ?_⟩
  · obtain ⟨-, rfl⟩ := ofOverrides_eq_ok_iff.1 haccepted
    refine ⟨requireAssigned_eq_ok_iff, fun fault => ?_⟩
    rw [requireAssigned_eq_error_iff]
    constructor
    · rintro ⟨o, ⟨ho, hnone, hlowest⟩, rfl⟩
      exact ⟨o, ho, hnone, hlowest, rfl⟩
    · rintro ⟨o, ho, hnone, hlowest, rfl⟩
      exact ⟨o, ⟨ho, hnone, hlowest⟩, rfl⟩

/-- Of three overrides the database assigns the first only. -/
theorem ofOverrides_outcome_unassigned :
    let dollar : Override := ⟨0x24, .otherLetter, .identifierStart⟩
    let space : Override := ⟨0xA0, .spaceSeparator, .whitespace⟩
    let joiner : Override := ⟨0x200D, .spacingMark, .identifierPart⟩
    let c : Classifier := ⟨#[dollar, space, joiner], by decide⟩
    let db := (Database.empty.define 0x24 ⟨"DOLLAR SIGN", .currencySymbol⟩).2
    ofOverrides [dollar, space, joiner] = .ok c
      ∧ c.requireAssigned db = .error (.unassigned 0xA0 .whitespace) := by
  intro dollar space joiner c db
  have haccepted : ofOverrides [dollar, space, joiner] = .ok c :=
    ofOverrides_eq_ok_iff.2 ⟨c.acceptable, rfl⟩
  have hspace : db.characterAt? 0xA0 = none := by rfl
  have hlowest : ∀ a ∈ [dollar, space, joiner], db.characterAt? a.codePoint = none →
      0xA0 ≤ a.codePoint := by decide +kernel
  obtain ⟨-, -, hdatabase⟩ := ofOverrides_outcome [dollar, space, joiner]
  obtain ⟨-, hrefused⟩ := hdatabase c haccepted db
  exact ⟨haccepted, (hrefused _).2 ⟨space, by simp, hspace, hlowest, rfl⟩⟩

end CharRuns.Classifier
