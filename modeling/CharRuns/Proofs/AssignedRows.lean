import CharRuns.Proofs.DefinitionText
import CharRuns.Proofs.GeneratedRules
import CharRuns.Proofs.GenerationOutcome

/-!
# Rows of assigned code points

A classifier whose overrides are all for assigned code points gives a rule to assigned code points
only (`isSome_characterAt?_of_classify`), and a table of its rules covers nothing else. So each row
of a definition or a packed table shows the name that the database has for the start of its run
(`exists_rows_of_render`), and the text that stands in for a missing name is never used.
-/

namespace CharRuns

namespace Run

theorem isSome_scan_iff {runs : List Run} {n : Nat} :
    (scan runs n).isSome = true ↔ ∃ run ∈ runs, run.covers n = true := by
  rw [scan, Option.isSome_map, List.find?_isSome]

end Run

namespace Classifier

variable {c : Classifier} {db : Database}

/-- What has a rule is assigned: an override's code point because it was checked, any other because
its rule is that of its category. -/
theorem isSome_characterAt?_of_classify (h : c.requireAssigned db = .ok ()) {n : Nat}
    (hrule : (c.classify n (db.categoryAt? n)).isSome = true) :
    (db.characterAt? n).isSome = true := by
  unfold classify at hrule
  split at hrule
  · rename_i o ho
    obtain ⟨hmem, rfl⟩ := mem_of_overrideAt?_eq_some ho
    exact requireAssigned_eq_ok_iff.1 h o hmem
  · rw [Database.categoryAt?, Option.bind_map] at hrule
    exact Option.isSome_of_isSome_bind hrule

theorem isSome_characterAt?_of_tabulate (h : c.requireAssigned db = .ok ()) :
    ∃ t, c.tabulate db = .ok t
      ∧ (∀ n, (t.ruleAt n).isSome = true → (db.characterAt? n).isSome = true)
      ∧ ∀ run ∈ t.runs, (db.characterAt? run.start).isSome = true := by
  obtain ⟨runs, htable, hcanonical, hscan⟩ := c.tabulate_eq_ok db
  have hassigned (n : Nat) (hn : (Run.scan runs n).isSome = true) :
      (db.characterAt? n).isSome = true := by
    rw [hscan] at hn
    split_ifs at hn
    · exact isSome_characterAt?_of_classify h hn
    · cases hn
  refine ⟨_, htable, fun n hn => ?_, fun run hrun => ?_⟩
  · rw [Table.ruleAt_of_isChain hcanonical] at hn
    exact hassigned n hn
  · exact hassigned _ (Run.isSome_scan_iff.2 ⟨run, by simpa using hrun, run.covers_start⟩)

end Classifier

namespace Artifact

/-- The line shows the run, with the name in its comment. -/
def Shows (artifact : Artifact) (run : Run) (name line : String) : Prop :=
  match artifact with
  | header _ _ => False
  | definition _ spelling => line = s!"  {run.display}, // {name} ({spelling.member run.rule})"
  | packed spelling =>
    line = s!"    0x{Hex.upper 8 run.pack.toNat}, // {CodePoint.display run.start} +{run.length} "
      ++ s!"{name} ({spelling.member run.rule})"

/-- The artifact shows every run of its table in a row. -/
def HasRows : Artifact → Prop
  | header _ _ => False
  | definition _ _ | packed _ => True

theorem nameAt_of_characterAt? {db : Database} {n : Nat} {character : Character}
    (h : db.characterAt? n = some character) : nameAt db n = character.name := by
  rw [nameAt, h]

/-- Where the starts of all runs are assigned, the rows show their names. -/
theorem exists_rows {artifact : Artifact} (hrows : artifact.HasRows) {table : Table} {db : Database}
    (h : ∀ run ∈ table.runs, (db.characterAt? run.start).isSome = true) :
    ∃ front rows back, artifact.lines table db = front ++ rows ++ back
      ∧ List.Forall₂ (fun run row => ∃ character, db.characterAt? run.start = some character
        ∧ artifact.Shows run character.name row) table.runs.toList rows := by
  have hrow {row : Run → String} (hshows : ∀ run character,
      db.characterAt? run.start = some character → artifact.Shows run character.name (row run)) :
      List.Forall₂ (fun run row => ∃ character, db.characterAt? run.start = some character
        ∧ artifact.Shows run character.name row) table.runs.toList (table.runs.toList.map row) := by
    rw [List.forall₂_map_right_iff, List.forall₂_same]
    intro run hrun
    obtain ⟨character, hcharacter⟩ := Option.isSome_iff_exists.1 (h run (by simpa using hrun))
    exact ⟨character, hcharacter, hshows run character hcharacter⟩
  cases artifact with
  | header guard spelling => exact hrows.elim
  | definition headerFile spelling =>
    refine ⟨[_, _], table.runs.toList.map (definitionRow spelling db), _,
      definitionLines_eq headerFile spelling table db, hrow fun run character hcharacter => ?_⟩
    rw [Shows, definitionRow, nameAt_of_characterAt? hcharacter]
  | packed spelling =>
    refine ⟨packedHead spelling ++ [packedSize table.size],
      table.runs.toList.map (packedRow spelling db), ["];"], ?_,
      hrow fun run character hcharacter => ?_⟩
    · simp only [lines, packedLines_eq, List.append_assoc, List.cons_append, List.nil_append]
    · rw [Shows, packedRow, nameAt_of_characterAt? hcharacter]

end Artifact

namespace Generation

theorem renderStandard_eq_ok_iff {artifact : Artifact} {db : Database} {out : String} :
    renderStandard artifact db = .ok out ↔ Classifier.standard.requireAssigned db = .ok ()
      ∧ ∃ t, Classifier.standard.tabulate db = .ok t ∧ artifact.render t db = out := by
  obtain ⟨runs, htable, -⟩ := Classifier.standard.tabulate_eq_ok db
  rcases h : Classifier.standard.requireAssigned db with fault | ⟨⟩
  · simp [renderStandard_of_error artifact h]
  · simp [renderStandard, Classifier.standardFor, h, htable]

end Generation

namespace Settings

/-- The artifact that settings ask for, if it has rows. -/
def rowArtifact? (s : Settings) : Option Artifact :=
  match s.mode with
  | .definition => some (.definition s.headerFile .snake)
  | .packed => some (.packed .pascal)
  | .header | .dump => none

theorem render_of_rowArtifact? {s : Settings} {artifact : Artifact}
    (h : s.rowArtifact? = some artifact) (db : Database) :
    artifact.HasRows ∧ s.render db = Generation.renderStandard artifact db := by
  unfold rowArtifact? at h
  unfold render
  rcases hmode : s.mode <;> rw [hmode] at h <;> cases h
  case definition => exact ⟨trivial, rfl⟩
  case packed => exact ⟨trivial, rfl⟩

/-- Whatever has a rule in the table of a classifier is assigned, if the classifier's overrides
are, and so are the starts of the table's runs. The artifacts that list the runs then show for each
of them, in a row of its own, the name that the database has for its start. -/
theorem exists_rows_of_render (db : Database) :
    (∀ c : Classifier, c.requireAssigned db = .ok () →
      ∃ t, c.tabulate db = .ok t
        ∧ (∀ n, (t.ruleAt n).isSome = true → (db.characterAt? n).isSome = true)
        ∧ ∀ run ∈ t.runs, (db.characterAt? run.start).isSome = true)
    ∧ ∀ (s : Settings) (artifact : Artifact) (out : String), s.rowArtifact? = some artifact →
      s.render db = .ok out →
      ∃ t front rows back, Classifier.standard.tabulate db = .ok t
        ∧ out = String.join ((front ++ rows ++ back).map (· ++ "\n"))
        ∧ List.Forall₂ (fun run row => ∃ character, db.characterAt? run.start = some character
          ∧ artifact.Shows run character.name row) t.runs.toList rows := by
  refine ⟨fun c h => Classifier.isSome_characterAt?_of_tabulate h, ?_⟩
  intro s artifact out hartifact hrender
  obtain ⟨hrows, heq⟩ := render_of_rowArtifact? hartifact db
  obtain ⟨hassigned, t, htable, rfl⟩ := Generation.renderStandard_eq_ok_iff.1 (heq ▸ hrender)
  obtain ⟨t', htable', -, hstart⟩ := Classifier.isSome_characterAt?_of_tabulate hassigned
  obtain rfl : t = t' := Except.ok.inj (htable.symm.trans htable')
  obtain ⟨front, rows, back, hlines, hshows⟩ := Artifact.exists_rows hrows hstart
  refine ⟨t, front, rows, back, htable, ?_, hshows⟩
  rw [← hlines]
  rfl

theorem exists_rows_of_render_sampleLines :
    ∃ db t out front rows back,
      Listing.read (String.join (Listing.sampleLines.map (· ++ "\n"))) = .ok db
      ∧ Classifier.standard.requireAssigned db = .ok ()
      ∧ Classifier.standard.tabulate db = .ok t
      ∧ (∀ n, (t.ruleAt n).isSome = true → (db.characterAt? n).isSome = true)
      ∧ { default with mode := .packed }.render db = .ok out
      ∧ out = String.join ((front ++ rows ++ back).map (· ++ "\n"))
      ∧ List.Forall₂ (fun run row => ∃ character, db.characterAt? run.start = some character
        ∧ (Artifact.packed .pascal).Shows run character.name row) t.runs.toList rows := by
  obtain ⟨db, hread, hassigned⟩ := Listing.exists_read_sampleLines
  have hrequire : Classifier.standard.requireAssigned db = .ok () :=
    Classifier.requireAssigned_eq_ok_iff.2 hassigned
  obtain ⟨t, hrender⟩ := Generation.renderStandard_of_ok (.packed .pascal) hrequire
  have hall := exists_rows_of_render db
  obtain ⟨t, htable, hrule, -⟩ := hall.1 _ hrequire
  obtain ⟨t', front, rows, back, htable', hout, hshows⟩ :=
    hall.2 { default with mode := .packed } (.packed .pascal) _ rfl hrender
  obtain rfl : t = t' := Except.ok.inj (htable.symm.trans htable')
  exact ⟨db, t, _, front, rows, back, hread, hrequire, htable, hrule, hrender, hout, hshows⟩

end Settings

end CharRuns
