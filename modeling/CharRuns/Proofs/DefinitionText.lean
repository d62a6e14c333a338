import CharRuns.Proofs.DeclaredSize
import CharRuns.Proofs.PackedText

/-!
# Reading a definition back

A row of a definition says a run in braces: the start in hexadecimal, the length and the rule code
in decimal, and a comment behind (`IsRow`). `readRow?` takes such a line apart again, so a line is a
row for one run at most, and `readDefinition?` gets from the text of a definition the runs of its
table (`readDefinition?_render`), whatever the names in the comments look like, as long as neither
they nor the path of the header break a line.
-/

namespace CharRuns

namespace Artifact

/-- The line says the run in braces, with the start in hexadecimal and the rest in decimal, and
goes on with a comment. -/
def IsRow (line : List Char) (run : Run) : Prop :=
  ∃ start length code comment : List Char,
    line = "  \x7b 0x".toList ++ start ++ ", ".toList ++ length ++ ", ".toList ++ code
        ++ " \x7d, // ".toList ++ comment
      ∧ Hex.value? start = some run.start ∧ Decimal.value? length = some run.length
      ∧ Decimal.value? code = some run.rule.code

/-- The run that a row says. -/
def readRow? (line : List Char) : Option Run := do
  let rest ← line.dropPrefix? "  \x7b 0x".toList
  let (start, rest) ← number? Hex.value? ", ".toList rest
  let (length, rest) ← number? Decimal.value? ", ".toList rest
  let (code, _) ← number? Decimal.value? " \x7d, // ".toList rest
  let rule ← Rule.ofCode? code
  (Run.make start length rule).toOption

/-- The runs in the rows of a text, which stand behind two lines and before one. -/
def readDefinition? (text : String) : Option (List Run) :=
  ((Text.lines text.toList).drop 2).dropLast.mapM readRow?

theorem readRow?_of_isRow {line : List Char} {run : Run} (h : IsRow line run) :
    readRow? line = some run := by
  obtain ⟨start, length, code, comment, rfl, hstart, hlength, hcode⟩ := h
  have hcomma : ∃ c cs, ", ".toList = c :: cs ∧ c.isAlphanum = false := ⟨_, _, rfl, rfl⟩
  have hclose : ∃ c cs, " \x7d, // ".toList = c :: cs ∧ c.isAlphanum = false := ⟨_, _, rfl, rfl⟩
  have hnumeral : Hex.IsNumeral start run.start := Hex.value?_eq_some_iff.1 hstart
  simp only [List.append_assoc, readRow?, List.dropPrefix?_append_of_beq _ BEq.rfl,
    number?_append hstart hnumeral.isAlphanum hcomma,
    number?_append hlength (Decimal.isAlphanum_of_value? hlength) hcomma,
    number?_append hcode (Decimal.isAlphanum_of_value? hcode) hclose,
    Option.bind_eq_bind, Option.bind_some, Rule.ofCode?_code, Run.make_eq_ok]
  rfl

section Definition

variable {db : Database} {headerFile : String}

/-- The line that includes the header. -/
def includeLine (headerFile : String) : String :=
  s!"#include \"{headerFile}\""

theorem definitionLines_eq (headerFile : String) (spelling : Spelling) (table : Table)
    (db : Database) : definitionLines headerFile spelling table db
      = includeLine headerFile :: sizeLine (.definition headerFile spelling) table.size
        :: (table.runs.toList.map (definitionRow spelling db) ++ ["\x7d\x7d;"]) := by
  rfl

theorem toList_definitionRow (spelling : Spelling) (db : Database) (run : Run) :
    (definitionRow spelling db run).toList = "  \x7b 0x".toList ++ Hex.digits 4 run.start
      ++ ", ".toList ++ Nat.toDigits 10 run.length ++ ", ".toList ++ Nat.toDigits 10 run.rule.code
      ++ " \x7d, // ".toList ++ ((nameAt db run.start).toList ++ " (".toList
        ++ (spelling.member run.rule).toList ++ [')']) := by
  unfold definitionRow Run.display Hex.lower
  simp only [String.toList_append, toString, Nat.repr, String.toList_ofList, List.append_assoc]
  rfl

theorem isRow_definitionRow (spelling : Spelling) (db : Database) (run : Run) :
    IsRow (definitionRow spelling db run).toList run :=
  ⟨_, _, _, _, toList_definitionRow spelling db run,
    Hex.value?_eq_some_iff.2 (Hex.isNumeral_digits 4 run.start), Decimal.value?_toDigits _,
    Decimal.value?_toDigits _⟩

theorem toList_includeLine (headerFile : String) : (includeLine headerFile).toList
    = "#include \"".toList ++ headerFile.toList ++ ['"'] := by
  unfold includeLine
  simp only [String.toList_append, toString]
  rfl

theorem isLine_includeLine (h : '\n' ∉ headerFile.toList) :
    Text.IsLine (includeLine headerFile) := by
  refine Text.isLine_of_concat (toList_includeLine headerFile) ?_ (by decide) (by decide)
  simp only [List.mem_append, not_or]
  exact ⟨by decide, h⟩

theorem isLine_definitionRow (h : NamesFit db) (spelling : Spelling) (run : Run) :
    Text.IsLine (definitionRow spelling db run) := by
  have hstart : '\n' ∉ Hex.digits 4 run.start := (Hex.isNumeral_digits 4 run.start).not_mem rfl
  have hlist := toList_definitionRow spelling db run
  simp only [← List.append_assoc _ _ [')']] at hlist
  refine Text.isLine_of_concat hlist ?_ (by decide) (by decide)
  simp only [List.mem_append, not_or]
  exact ⟨⟨⟨⟨⟨⟨⟨by decide, hstart⟩, by decide⟩, newline_not_mem_toDigits _⟩, by decide⟩,
    newline_not_mem_toDigits _⟩, by decide⟩, ⟨newline_not_mem_nameAt h _, by decide⟩,
    newline_not_mem_member spelling run.rule⟩

theorem isLine_of_mem_definitionLines (hnames : NamesFit db) (hpath : '\n' ∉ headerFile.toList)
    (spelling : Spelling) (table : Table) :
    ∀ line ∈ definitionLines headerFile spelling table db, Text.IsLine line := by
  intro line hline
  rw [definitionLines_eq] at hline
  simp only [List.mem_append, List.mem_cons, List.mem_map, List.not_mem_nil, or_false] at hline
  rcases hline with rfl | rfl | ⟨run, -, rfl⟩ | rfl
  · exact isLine_includeLine hpath
  · exact isLine_sizeLine _ table.size
  · exact isLine_definitionRow hnames spelling run
  · decide

theorem lines_render_definition (hnames : NamesFit db) (hpath : '\n' ∉ headerFile.toList)
    (spelling : Spelling) (table : Table) :
    Text.lines ((definition headerFile spelling).render table db).toList
      = (includeLine headerFile).toList
        :: (sizeLine (.definition headerFile spelling) table.size).toList
        :: (table.runs.toList.map (fun run => (definitionRow spelling db run).toList)
          ++ ["\x7d\x7d;".toList]) := by
  have hlines : ∀ line ∈ (definition headerFile spelling).lines table db, Text.IsLine line :=
    isLine_of_mem_definitionLines hnames hpath spelling table
  rw [render, endedLines, Text.lines_join hlines, lines, definitionLines_eq]
  simp only [List.map_cons, List.map_append, List.map_map, List.map_nil, Function.comp_def]

/-- The rows of a definition are the runs of its table. -/
theorem readDefinition?_render (hnames : NamesFit db) (hpath : '\n' ∉ headerFile.toList)
    (spelling : Spelling) (table : Table) :
    readDefinition? ((definition headerFile spelling).render table db)
      = some table.runs.toList := by
  rw [readDefinition?, lines_render_definition hnames hpath]
  simp only [List.drop_succ_cons, List.drop_zero, List.dropLast_concat]
  exact mapM_map_eq_some (fun run => readRow?_of_isRow (isRow_definitionRow spelling db run)) _

end Definition

end Artifact

end CharRuns
