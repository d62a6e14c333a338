import CharRuns.Generation
import CharRuns.Proofs.ListingEntries
import CharRuns.Proofs.Overrides
import CharRuns.Proofs.PackedText
import CharRuns.Proofs.TabulatedRules

/-!
# From a listing to a packed artifact

A listing that assigns the code points of the standard overrides has a packed artifact, and the
words in its text are the runs of the listing's rules: at most one run covers a code point, and it
carries the rule that an override or else the listing gives the code point
(`Settings.map_rule_of_render_packed`).
-/

namespace CharRuns

/-- The rule of a code point in a listing of entries, standard overrides applied. -/
def Listing.ruleOf (entries : List Entry) (n : Nat) : Option Rule :=
  match Override.standard.find? (·.codePoint = n) with
  | some o => some o.rule
  | none => (entries.find? (·.covers n)).bind (·.character.category.rule?)

namespace Listing

variable {text : String} {entries : List Entry} {db : Database}

theorem verdict_standard_eq_ruleOf (hascend : Entry.Ascending entries) (h : db.Holds entries)
    (n : Nat) : Classifier.standard.verdict db n = ruleOf entries n := by
  rw [Classifier.verdict, Classifier.classify_standard, Database.categoryAt?,
    h.characterAt?_eq hascend, Option.map_map, Option.bind_map]
  rfl

theorem Describes.ruleOf_eq_none (h : Describes text entries) {n : Nat} (hn : CodePoint.max < n) :
    ruleOf entries n = none := by
  have hoverride : Override.standard.find? (·.codePoint = n) = none := by
    refine List.find?_eq_none.2 fun o ho heq => ?_
    have : ∀ o ∈ Override.standard, o.codePoint ≤ CodePoint.max := by decide
    have := this o ho
    simp only [decide_eq_true_eq] at heq
    omega
  have hentry : entries.find? (·.covers n) = none :=
    Entry.find?_covers_eq_none fun e he _ => (h.last_le_max e he).trans_lt hn
  rw [ruleOf, hoverride, hentry]
  rfl

theorem Describes.namesFit (h : Describes text entries) (hholds : db.Holds entries) :
    Artifact.NamesFit db := by
  intro n character hcharacter
  rw [hholds.characterAt?_eq h.ascending] at hcharacter
  obtain ⟨e, he, rfl⟩ := Option.map_eq_some_iff.1 hcharacter
  exact h.newline_not_mem_name e (List.mem_of_find?_eq_some he)

end Listing

/-- From the text of a listing to the words of the artifact, nothing about a rule is lost. -/
theorem Settings.map_rule_of_render_packed {text : String} {db : Database} {s : Settings}
    (hread : Listing.read text = .ok db)
    (hassigned : ∀ o ∈ Override.standard, (db.characterAt? o.codePoint).isSome = true)
    (hmode : s.mode = .packed) :
    ∃ entries out runs, (∀ es, Listing.Describes text es ↔ es = entries)
      ∧ s.render db = .ok out ∧ Artifact.readPacked? out = some runs
      ∧ ∀ n, (runs.filter (·.covers n)).map (·.rule) = (Listing.ruleOf entries n).toList := by
  obtain ⟨entries, hdescribes, hholds⟩ := Listing.holds_of_read hread
  obtain ⟨runs, htable, hcanonical, hscan⟩ := Classifier.standard.tabulate_eq_ok db
  have hrender : s.render db
      = .ok ((Artifact.packed .pascal).render ⟨runs.toArray, Run.longestOf runs⟩ db) := by
    rw [Settings.render, hmode]
    simp only [Generation.renderStandard, Classifier.standardFor_eq_ok hassigned, htable]
  have hwords := Artifact.readPacked?_render (hdescribes.namesFit hholds) .pascal
    ⟨runs.toArray, Run.longestOf runs⟩
  have hentries (es : List Entry) : Listing.Describes text es ↔ es = entries :=
    ⟨fun h => h.unique hdescribes, fun h => h ▸ hdescribes⟩
  refine ⟨entries, _, runs, hentries, hrender, hwords, fun n => ?_⟩
  rw [Run.map_rule_filter_covers (Run.pairwise_before_of_isChain hcanonical), hscan]
  split_ifs with hn
  · rw [Listing.verdict_standard_eq_ruleOf hdescribes.ascending hholds]
  · rw [hdescribes.ruleOf_eq_none (by omega)]

/-- The lines of a listing that assigns the targets of the standard overrides, and a block. -/
def Listing.sampleLines : List String :=
  [ "9;TAB;Cc;;;;;;;;;;;;"
  , "A;LF;Cc;;;;;;;;;;;;"
  , "B;VT;Cc;;;;;;;;;;;;"
  , "C;FF;Cc;;;;;;;;;;;;"
  , "D;CR;Cc;;;;;;;;;;;;"
  , "20;SPACE;Zs;;;;;;;;;;;;"
  , "24;DOLLAR SIGN;Sc;;;;;;;;;;;;"
  , "5F;LOW LINE;Pc;;;;;;;;;;;;"
  , "A0;NBSP;Zs;;;;;;;;;;;;"
  , "200C;ZWNJ;Cf;;;;;;;;;;;;"
  , "200D;ZWJ;Cf;;;;;;;;;;;;"
  , "FEFF;BOM;Cf;;;;;;;;;;;;"
  , "20000;<Han, First>;Lo;;;;;;;;;;;;"
  , "2A6DF;<Han, Last>;Lo;;;;;;;;;;;;" ]

theorem Listing.exists_read_sampleLines :
    ∃ db, read (String.join (sampleLines.map (· ++ "\n"))) = .ok db
      ∧ ∀ o ∈ Override.standard, (db.characterAt? o.codePoint).isSome = true := by
  have hlines : Text.lines (String.join (sampleLines.map (· ++ "\n"))).toList
      = sampleLines.map String.toList :=
    Text.lines_join (by decide +kernel)
  have hassigned : ((readLines (sampleLines.map String.toList)).toOption.any fun db =>
      Override.standard.all fun o => (db.characterAt? o.codePoint).isSome) = true := by
    decide +kernel
  rw [← hlines] at hassigned
  cases hread : readLines (Text.lines (String.join (sampleLines.map (· ++ "\n"))).toList) with
  | error fault =>
    rw [hread] at hassigned
    cases hassigned
  | ok db =>
    rw [hread] at hassigned
    exact ⟨db, hread, List.all_eq_true.1 hassigned⟩

theorem Settings.map_rule_of_render_packed_sampleLines :
    let text := String.join (Listing.sampleLines.map (· ++ "\n"))
    ∃ db, Listing.read text = .ok db ∧ ∃ entries out runs,
      (∀ es, Listing.Describes text es ↔ es = entries)
      ∧ { Settings.default with mode := .packed }.render db = .ok out
      ∧ Artifact.readPacked? out = some runs
      ∧ ∀ n, (runs.filter (·.covers n)).map (·.rule) = (Listing.ruleOf entries n).toList := by
  obtain ⟨db, hread, hassigned⟩ := Listing.exists_read_sampleLines
  exact ⟨db, hread, Settings.map_rule_of_render_packed hread hassigned rfl⟩

end CharRuns
