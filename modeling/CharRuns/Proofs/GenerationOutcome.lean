import CharRuns.Generation
import CharRuns.Proofs.AcceptedOverrides
import CharRuns.Proofs.MacroNames
import CharRuns.Proofs.TabulatedRules

/-!
# What generating comes to

A dump is always made. An artifact is made unless its include guard does not name a macro, which is
found first, or a standard override has an unassigned code point, the lowest of which is reported
(`Settings.render_outcome`). Encoding the code space, checking the table and writing the text are
never what fails: a database that has the standard overrides has a table, and the table its text
(`Generation.renderStandard_of_ok`).
-/

namespace CharRuns

theorem Artifact.headerWith_eq_ok {guard : String} (h : MacroName.WellFormed guard)
    (spelling : Spelling) : headerWith guard spelling
      = .ok (.header ⟨guard, (isMacroName_iff guard).2 h⟩ spelling) := by
  rw [headerWith, MacroName.ofText?, dif_pos ((isMacroName_iff guard).2 h)]

theorem Artifact.headerWith_eq_error {guard : String} (h : ¬ MacroName.WellFormed guard)
    (spelling : Spelling) : headerWith guard spelling = .error (.invalidGuard guard) := by
  rw [headerWith, MacroName.ofText?, dif_neg (mt (isMacroName_iff guard).1 h)]

namespace Generation

variable {artifact : Artifact} {db : Database}

theorem renderStandard_of_ok (artifact : Artifact)
    (h : Classifier.standard.requireAssigned db = .ok ()) :
    ∃ t, renderStandard artifact db = .ok (artifact.render t db) := by
  obtain ⟨runs, htable, -⟩ := Classifier.standard.tabulate_eq_ok db
  refine ⟨⟨runs.toArray, Run.longestOf runs⟩, ?_⟩
  simp only [renderStandard, Classifier.standardFor, h, htable]

theorem renderStandard_of_error (artifact : Artifact) {fault : Classifier.Fault}
    (h : Classifier.standard.requireAssigned db = .error fault) :
    renderStandard artifact db = .error (.tabulation (.classifier fault)) := by
  simp only [renderStandard, Classifier.standardFor, h]

theorem exists_renderStandard_iff : (∃ out, renderStandard artifact db = .ok out) ↔
    ∀ o ∈ Override.standard, (db.characterAt? o.codePoint).isSome = true := by
  refine Iff.trans ?_ (Classifier.requireAssigned_eq_ok_iff (c := Classifier.standard))
  rcases h : Classifier.standard.requireAssigned db with fault | ⟨⟩
  · rw [renderStandard_of_error artifact h]
    simp
  · obtain ⟨t, ht⟩ := renderStandard_of_ok artifact h
    rw [ht]
    simp

/-- With the standard table, only an unassigned override stands in the way of an artifact. -/
theorem renderStandard_eq_error_iff {fault : Fault} : renderStandard artifact db = .error fault ↔
    ∃ o, Classifier.standard.FirstUnassigned db o
      ∧ fault = .tabulation (.classifier (.unassigned o.codePoint o.rule)) := by
  have hlowest {cause : Classifier.Fault} :
      Classifier.standard.requireAssigned db = .error cause ↔ _ :=
    Classifier.requireAssigned_eq_error_iff
  rcases h : Classifier.standard.requireAssigned db with cause | ⟨⟩
  · rw [renderStandard_of_error artifact h]
    obtain ⟨o, ho, rfl⟩ := hlowest.1 h
    constructor
    · rintro ⟨⟩
      exact ⟨o, ho, rfl⟩
    · rintro ⟨p, hp, rfl⟩
      rw [Except.error.inj (h.symm.trans (hlowest.2 ⟨p, hp, rfl⟩))]
  · obtain ⟨t, ht⟩ := renderStandard_of_ok artifact h
    rw [ht]
    constructor
    · rintro ⟨⟩
    · rintro ⟨o, ho, rfl⟩
      cases h.symm.trans (hlowest.2 ⟨o, ho, rfl⟩)

end Generation

namespace Settings

/-- A dump is made, a bad include guard is refused, and anything else is an artifact of the standard
table. -/
theorem render_cases (s : Settings) (db : Database) :
    (s.mode = .dump ∧ s.render db = .ok db.dump)
      ∨ (s.mode = .header ∧ ¬ MacroName.WellFormed s.includeGuard
        ∧ s.render db = .error (.artifact (.invalidGuard s.includeGuard)))
      ∨ (s.mode ≠ .dump ∧ (s.mode = .header → MacroName.WellFormed s.includeGuard)
        ∧ ∃ artifact, s.render db = Generation.renderStandard artifact db) := by
  unfold Settings.render
  rcases s.mode
  case dump => exact .inl ⟨rfl, rfl⟩
  case header =>
    by_cases hguard : MacroName.WellFormed s.includeGuard
    · rw [Artifact.headerWith_eq_ok hguard]
      exact .inr (.inr ⟨by decide, fun _ => hguard, _, rfl⟩)
    · rw [Artifact.headerWith_eq_error hguard]
      exact .inr (.inl ⟨rfl, hguard, rfl⟩)
  case definition => exact .inr (.inr ⟨by decide, by rintro ⟨⟩, _, rfl⟩)
  case packed => exact .inr (.inr ⟨by decide, by rintro ⟨⟩, _, rfl⟩)

theorem exists_render_iff (s : Settings) (db : Database) :
    (∃ out, s.render db = .ok out) ↔ s.mode = .dump
      ∨ (∀ o ∈ Override.standard, (db.characterAt? o.codePoint).isSome = true)
        ∧ (s.mode = .header → MacroName.WellFormed s.includeGuard) := by
  rcases s.render_cases db with
    ⟨hdump, hok⟩ | ⟨hheader, hguard, herror⟩ | ⟨hdump, hguard, artifact, hrender⟩
  · rw [hok]
    simp [hdump]
  · rw [herror]
    simp [hheader, hguard]
  · rw [hrender, Generation.exists_renderStandard_iff, or_iff_right hdump, and_iff_left hguard]

/-- A bad guard is found before an unassigned override. -/
theorem render_eq_error_iff (s : Settings) (db : Database) (fault : Generation.Fault) :
    s.render db = .error fault ↔
      (s.mode = .header ∧ ¬ MacroName.WellFormed s.includeGuard
        ∧ fault = .artifact (.invalidGuard s.includeGuard))
      ∨ (s.mode ≠ .dump ∧ (s.mode = .header → MacroName.WellFormed s.includeGuard)
        ∧ ∃ o, Classifier.standard.FirstUnassigned db o
          ∧ fault = .tabulation (.classifier (.unassigned o.codePoint o.rule))) := by
  rcases s.render_cases db with
    ⟨hdump, hok⟩ | ⟨hheader, hguard, herror⟩ | ⟨hdump, hguard, artifact, hrender⟩
  · rw [hok]
    simp [hdump]
  · rw [herror]
    simp [hheader, hguard, eq_comm]
  · rw [hrender, Generation.renderStandard_eq_error_iff, and_iff_right hguard,
      and_iff_right hdump, or_iff_right fun h => h.2.1 (hguard h.1)]

/-- What settings ask for is made if it is a dump, or else if the standard overrides are assigned
and the include guard of a header names a macro. If not, then a bad guard is reported, whatever the
database holds, and otherwise the lowest override that is unassigned, and nothing else ever is. The
standard overrides themselves are always accepted. -/
theorem render_outcome (s : Settings) (db : Database) :
    ((∃ out, s.render db = .ok out) ↔ s.mode = .dump
      ∨ (∀ o ∈ Override.standard, (db.characterAt? o.codePoint).isSome = true)
        ∧ (s.mode = .header → MacroName.WellFormed s.includeGuard))
    ∧ (∀ fault, s.render db = .error fault ↔
      (s.mode = .header ∧ ¬ MacroName.WellFormed s.includeGuard
        ∧ fault = .artifact (.invalidGuard s.includeGuard))
      ∨ (s.mode ≠ .dump ∧ (s.mode = .header → MacroName.WellFormed s.includeGuard)
        ∧ ∃ o, Classifier.standard.FirstUnassigned db o
          ∧ fault = .tabulation (.classifier (.unassigned o.codePoint o.rule))))
    ∧ Classifier.ofOverrides Override.standard = .ok Classifier.standard :=
  ⟨s.exists_render_iff db, s.render_eq_error_iff db, Classifier.ofOverrides_standard⟩

end Settings

end CharRuns
