import CharRuns.Proofs.DatabaseEntries
import CharRuns.Proofs.DefinitionText
import CharRuns.Proofs.MacroNames

/-!
# What the artifacts of a table have in common

In each artifact of a table one line declares a size, and it is the table's (`exists_lines_eq`,
`declaredSizes_render`). The rows of the definition and the words of the packed table are the same
runs in the same order, those of the table (`decode_render`).
-/

namespace CharRuns.Artifact

/-- The sizes that the lines of a text declare. -/
def declaredSizes (artifact : Artifact) (text : String) : List Nat :=
  (Text.lines text.toList).filterMap artifact.size?

/-- The path of the header that a definition includes does not break a line. -/
def PathFits : Artifact → Prop
  | definition headerFile _ => '\n' ∉ headerFile.toList
  | _ => True

variable {db : Database}

theorem namesFit_empty : NamesFit .empty := by
  intro n character h
  simp [Database.characterAt?, Database.blockAt?, Database.empty, Search.boundary] at h

theorem NamesFit.define (h : NamesFit db) (n : Nat) {character : Character}
    (hname : '\n' ∉ character.name.toList) : NamesFit (db.define n character).2 := by
  intro m other hother
  rw [Database.characterAt?_define] at hother
  split_ifs at hother
  · cases hother
    exact hname
  · exact h m other hother

theorem size?_cons_eq_none {artifact : Artifact} {c : Char} {cs : List Char}
    (h : artifact.declaration.1.toList.head? ≠ some c) : artifact.size? (c :: cs) = none :=
  size?_eq_none h.symm

section Header

/-- The lines of a header between its guard and the size of the table. -/
def headerBody (spelling : Spelling) : List String :=
  ((headerLines .defaultGuard spelling 0).drop 2).take 16

theorem headerLines_eq (guard : MacroName) (spelling : Spelling) (size : Nat) :
    headerLines guard spelling size
      = ("#ifndef " ++ guard.text) :: ("#define " ++ guard.text) :: (headerBody spelling
        ++ sizeLine (header guard spelling) size :: ["", "#endif // " ++ guard.text]) := by
  rfl

theorem of_mem_headerBody (guard : MacroName) (spelling : Spelling) :
    ∀ line ∈ headerBody spelling,
      Text.IsLine line ∧ (header guard spelling).size? line.toList = none := by
  -- How a header declares its size does not hang on the guard.
  change ∀ line ∈ headerBody spelling,
    Text.IsLine line ∧ (header .defaultGuard .snake).size? line.toList = none
  cases spelling <;> decide +kernel

theorem isLine_append_guard (guard : MacroName) {opening : String}
    (hfeed : '\n' ∉ opening.toList) (hreturn : '\r' ∉ opening.toList) :
    Text.IsLine (opening ++ guard.text) := by
  have hchars := ((isMacroName_iff guard.text).1 guard.valid).mem
  refine Text.isLine_of_not_mem ?_ ?_ <;> simp only [String.toList_append, List.mem_append, not_or]
  · exact ⟨hfeed, fun h => absurd (hchars _ h) (by decide)⟩
  · exact ⟨hreturn, fun h => absurd (hchars _ h) (by decide)⟩

theorem isLine_of_mem_headerLines (guard : MacroName) (spelling : Spelling) (size : Nat) :
    ∀ line ∈ headerLines guard spelling size, Text.IsLine line := by
  intro line hline
  rw [headerLines_eq] at hline
  simp only [List.mem_append, List.mem_cons, List.not_mem_nil, or_false] at hline
  rcases hline with rfl | rfl | hline | rfl | rfl | rfl
  · exact isLine_append_guard guard (by decide) (by decide)
  · exact isLine_append_guard guard (by decide) (by decide)
  · exact (of_mem_headerBody guard spelling line hline).1
  · exact isLine_sizeLine _ size
  · decide
  · exact isLine_append_guard guard (by decide) (by decide)

theorem size?_append_guard (guard : MacroName) (spelling : Spelling) {opening : String}
    (hopening : ∃ cs, opening.toList = '#' :: cs) :
    (header guard spelling).size? (opening ++ guard.text).toList = none := by
  obtain ⟨cs, hcs⟩ := hopening
  rw [String.toList_append, hcs]
  exact size?_cons_eq_none (by simp only [declaration]; decide)

end Header

theorem size?_of_mem_packedHead (spelling : Spelling) :
    ∀ line ∈ packedHead spelling, (packed spelling).size? line.toList = none := by
  cases spelling <;> decide +kernel

/-- One line of an artifact declares the size of the table, and no other declares any. -/
theorem exists_lines_eq (artifact : Artifact) (table : Table) (db : Database) :
    ∃ front back, artifact.lines table db = front ++ artifact.sizeLine table.size :: back
      ∧ ∀ line ∈ front ++ back, artifact.size? line.toList = none := by
  cases artifact with
  | header guard spelling =>
    refine ⟨("#ifndef " ++ guard.text) :: ("#define " ++ guard.text) :: headerBody spelling,
      ["", "#endif // " ++ guard.text], headerLines_eq guard spelling table.size, ?_⟩
    intro line hline
    simp only [List.mem_append, List.mem_cons, List.not_mem_nil, or_false] at hline
    rcases hline with (rfl | rfl | hline) | rfl | rfl
    · exact size?_append_guard guard spelling ⟨_, rfl⟩
    · exact size?_append_guard guard spelling ⟨_, rfl⟩
    · exact (of_mem_headerBody guard spelling line hline).2
    · exact size?_eq_none (by simp only [declaration]; decide)
    · exact size?_append_guard guard spelling ⟨_, rfl⟩
  | definition headerFile spelling =>
    refine ⟨[includeLine headerFile],
      table.runs.toList.map (definitionRow spelling db) ++ ["\x7d\x7d;"],
      definitionLines_eq headerFile spelling table db, ?_⟩
    intro line hline
    simp only [List.mem_append, List.mem_cons, List.mem_map, List.not_mem_nil, or_false] at hline
    rcases hline with rfl | ⟨run, -, rfl⟩ | rfl
    · rw [toList_includeLine]
      exact size?_cons_eq_none (by simp only [declaration]; decide)
    · rw [toList_definitionRow]
      exact size?_cons_eq_none (by simp only [declaration]; decide)
    · exact size?_eq_none (by simp only [declaration]; decide)
  | packed spelling =>
    refine ⟨packedHead spelling, table.runs.toList.map (packedRow spelling db) ++ ["];"],
      packedLines_eq spelling table db, ?_⟩
    intro line hline
    simp only [List.mem_append, List.mem_cons, List.mem_map, List.not_mem_nil, or_false] at hline
    rcases hline with hline | ⟨run, -, rfl⟩ | rfl
    · exact size?_of_mem_packedHead spelling line hline
    · rw [toList_packedRow]
      exact size?_cons_eq_none (by simp only [declaration]; decide)
    · exact size?_eq_none (by simp only [declaration]; decide)

theorem isLine_of_mem_lines (hnames : NamesFit db) {artifact : Artifact}
    (hpath : artifact.PathFits) (table : Table) :
    ∀ line ∈ artifact.lines table db, Text.IsLine line := by
  cases artifact with
  | header guard spelling => exact isLine_of_mem_headerLines guard spelling table.size
  | definition headerFile spelling =>
    exact isLine_of_mem_definitionLines hnames hpath spelling table
  | packed spelling => exact isLine_of_mem_packedLines hnames spelling table

/-- An artifact declares one size, that of its table. -/
theorem declaredSizes_render (hnames : NamesFit db) (artifact : Artifact)
    (hpath : artifact.PathFits) (table : Table) :
    artifact.declaredSizes (artifact.render table db) = [table.size] := by
  obtain ⟨front, back, hlines, hnone⟩ := exists_lines_eq artifact table db
  obtain ⟨hnonefront, hnoneback⟩ := List.forall_mem_append.1 hnone
  have hfront := Text.filterMap_toList_eq_nil hnonefront
  have hback := Text.filterMap_toList_eq_nil hnoneback
  rw [declaredSizes, render, endedLines, Text.lines_join (isLine_of_mem_lines hnames hpath table),
    hlines, List.map_append, List.filterMap_append, hfront, List.nil_append, List.map_cons,
    List.filterMap_cons_some (size?_sizeLine artifact table.size), hback]

/-- From the definition and the packed table of a table the same runs are read, its own. In the
definition each run has a row of its own behind the first two lines, and in the packed table each
has a line that starts with `0x`. The header, the definition and the packed table declare its
size. -/
theorem decode_render (table : Table) (hnames : NamesFit db) (guard : MacroName)
    {headerFile : String} (hpath : '\n' ∉ headerFile.toList) (spelling : Spelling) :
    let declared := (header guard spelling).render table db
    let defined := (definition headerFile spelling).render table db
    let words := (packed spelling).render table db
    (Text.lines defined.toList).length = table.size + 3
    ∧ (∀ i run, table.runs[i]? = some run →
      ∃ line, (Text.lines defined.toList)[i + 2]? = some line ∧ IsRow line run)
    ∧ readDefinition? defined = some table.runs.toList
    ∧ ((Text.lines words.toList).filterMap wordDigits?).length = table.size
    ∧ readPacked? words = some table.runs.toList
    ∧ (header guard spelling).declaredSizes declared = [table.size]
    ∧ (definition headerFile spelling).declaredSizes defined = [table.size]
    ∧ (packed spelling).declaredSizes words = [table.size] := by
  intro declared defined words
  have hdefined := lines_render_definition hnames hpath spelling table
  refine ⟨?_, fun i run hrun => ?_, readDefinition?_render hnames hpath spelling table, ?_,
    readPacked?_render hnames spelling table,
    declaredSizes_render hnames (header guard spelling) trivial table,
    declaredSizes_render hnames (definition headerFile spelling) hpath table,
    declaredSizes_render hnames (packed spelling) trivial table⟩
  · rw [hdefined]
    simp [Table.size]
  · refine ⟨(definitionRow spelling db run).toList, ?_, isRow_definitionRow spelling db run⟩
    have hi : i < table.runs.toList.length := by
      rw [Array.length_toList]
      exact (Array.getElem?_eq_some_iff.1 hrun).1
    rw [hdefined, List.getElem?_cons_succ, List.getElem?_cons_succ,
      List.getElem?_append_left (by rwa [List.length_map]), List.getElem?_map,
      Array.getElem?_toList, hrun, Option.map_some]
  · rw [filterMap_wordDigits?_render hnames, List.length_map, Array.length_toList, Table.size]

/-- A name that looks like the rest of a row, and a full run beyond four digits. -/
theorem decode_render_misleading_name :
    let letter : Run := ⟨0x41, 1, .identifierStart, by decide, by decide, by decide, by decide⟩
    let marks : Run := ⟨0xE0100, 511, .identifierPart, by decide, by decide, by decide, by decide⟩
    let table : Table := ⟨#[letter, marks], 511⟩
    let db := (Database.empty.define 0x41 ⟨"\x7b 0x0042, 2, 0 \x7d, // B", .uppercaseLetter⟩).2
    NamesFit db ∧ '\n' ∉ "out/cprun.hpp".toList
      ∧ readDefinition? ((definition "out/cprun.hpp" .snake).render table db) = some [letter, marks]
      ∧ readPacked? ((packed .snake).render table db) = some [letter, marks]
      ∧ (header .defaultGuard .snake).declaredSizes
        ((header .defaultGuard .snake).render table db) = [2] := by
  intro letter marks table db
  have hnames : NamesFit db := namesFit_empty.define 0x41 (by decide)
  have hpath : '\n' ∉ "out/cprun.hpp".toList := by decide
  obtain ⟨-, -, hdefinition, -, hpacked, hsize, -, -⟩ :=
    decode_render table hnames .defaultGuard hpath .snake
  exact ⟨hnames, hpath, hdefinition, hpacked, hsize⟩

end CharRuns.Artifact
