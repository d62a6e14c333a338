import CharRuns.Proofs.DeclaredSize
import CharRuns.Proofs.PackedWord

/-!
# Reading a packed table back

Whoever includes a packed table sees only its words. `readPacked?` takes the lines that start with
`0x`, reads the eight digits behind it and unpacks the word. From the text of a packed artifact it
gets the runs of the table back (`readPacked?_render`), provided that no name in the comments breaks
a line.
-/

namespace CharRuns.Artifact

/-- The eight digits behind `0x` on a line that starts with it, spaces aside. -/
def wordDigits? (line : List Char) : Option (List Char) :=
  match line.dropWhile (· = ' ') with
  | '0' :: 'x' :: rest => some (rest.take 8)
  | _ => none

/-- The run in the word that eight digits write. -/
def readWord? (digits : List Char) : Option Run :=
  if digits.length = 8 then
    (Hex.value? digits).bind fun n => (Run.unpack (UInt32.ofNat n)).toOption
  else none

/-- The runs in the words of a text. -/
def readPacked? (text : String) : Option (List Run) :=
  ((Text.lines text.toList).filterMap wordDigits?).mapM readWord?

/-- No name of the database breaks a line. -/
def NamesFit (db : Database) : Prop :=
  ∀ n character, db.characterAt? n = some character → '\n' ∉ character.name.toList

theorem newline_not_mem_nameAt {db : Database} (h : NamesFit db) (n : Nat) :
    '\n' ∉ (nameAt db n).toList := by
  unfold nameAt
  split
  · exact h n _ ‹_›
  · decide

section Packed

/-- The lines of a packed artifact that come before its table. -/
def packedHead (spelling : Spelling) : List String :=
  (packedLines spelling ⟨#[], 0⟩ .empty).take 16

/-- The line that declares the size of a packed table. -/
def packedSize (size : Nat) : String :=
  s!"pub static CODE_POINT_RUNS: [u32; {size}] = ["

theorem packedLines_eq (spelling : Spelling) (table : Table) (db : Database) :
    packedLines spelling table db = packedHead spelling ++ packedSize table.size
      :: (table.runs.toList.map (packedRow spelling db) ++ ["];"]) := by
  rfl

theorem isLine_of_mem_packedHead (spelling : Spelling) :
    ∀ line ∈ packedHead spelling, Text.IsLine line ∧ wordDigits? line.toList = none := by
  cases spelling <;> decide +kernel

theorem isLine_packedSize (size : Nat) :
    Text.IsLine (packedSize size) ∧ wordDigits? (packedSize size).toList = none := by
  have hsize : packedSize size = sizeLine (packed .pascal) size := rfl
  refine ⟨hsize ▸ isLine_sizeLine _ size, ?_⟩
  rw [hsize, toList_sizeLine]
  rfl

/-- A row is its word and a comment, which ends in a bracket. -/
theorem toList_packedRow (spelling : Spelling) (db : Database) (run : Run) :
    (packedRow spelling db run).toList = "    0x".toList ++ ((Hex.upper 8 run.pack.toNat).toList
      ++ (", // ".toList ++ (CodePoint.display run.start).toList ++ " +".toList
        ++ Nat.toDigits 10 run.length ++ " ".toList ++ (nameAt db run.start).toList
        ++ " (".toList ++ (spelling.member run.rule).toList ++ [')'])) := by
  unfold packedRow
  simp only [String.toList_append, toString, Nat.repr, String.toList_ofList, List.append_assoc]
  rfl

theorem newline_not_mem_upper (width n : Nat) : '\n' ∉ (Hex.upper width n).toList :=
  (Hex.isNumeral_upper width n).not_mem rfl

theorem newline_not_mem_member (spelling : Spelling) (rule : Rule) :
    '\n' ∉ (spelling.member rule).toList := by
  cases spelling <;> cases rule <;> decide

theorem isLine_packedRow {db : Database} (h : NamesFit db) (spelling : Spelling) (run : Run) :
    Text.IsLine (packedRow spelling db run) := by
  have hdisplay : '\n' ∉ (CodePoint.display run.start).toList := by
    rw [CodePoint.display, String.toList_append, List.mem_append, not_or]
    exact ⟨by decide, newline_not_mem_upper 4 run.start⟩
  have hlist := toList_packedRow spelling db run
  simp only [← List.append_assoc _ _ [')']] at hlist
  refine Text.isLine_of_concat hlist ?_ (by decide) (by decide)
  simp only [List.mem_append, not_or]
  exact ⟨by decide, newline_not_mem_upper 8 _, ⟨⟨⟨⟨⟨⟨by decide, hdisplay⟩, by decide⟩,
    newline_not_mem_toDigits _⟩, by decide⟩, newline_not_mem_nameAt h _⟩, by decide⟩,
    newline_not_mem_member spelling run.rule⟩

theorem length_upper_pack (run : Run) : (Hex.upper 8 run.pack.toNat).toList.length = 8 :=
  Hex.length_upper (by decide) run.pack.toNat_lt

theorem wordDigits?_packedRow (spelling : Spelling) (db : Database) (run : Run) :
    wordDigits? (packedRow spelling db run).toList
      = some (Hex.upper 8 run.pack.toNat).toList := by
  have hopening : "    0x".toList = [' ', ' ', ' ', ' ', '0', 'x'] := by decide
  simp [toList_packedRow, hopening, wordDigits?, List.take_left' (length_upper_pack run)]

theorem readWord?_upper (run : Run) :
    readWord? (Hex.upper 8 run.pack.toNat).toList = some run := by
  have hvalue := Hex.value?_eq_some_iff.2 (Hex.isNumeral_upper 8 run.pack.toNat)
  rw [readWord?, if_pos (length_upper_pack run), hvalue, Option.bind_some, UInt32.ofNat_toNat,
    Run.unpack_pack]
  rfl

theorem isLine_of_mem_packedLines {db : Database} (h : NamesFit db) (spelling : Spelling)
    (table : Table) : ∀ line ∈ packedLines spelling table db, Text.IsLine line := by
  intro line hline
  rw [packedLines_eq] at hline
  simp only [List.mem_append, List.mem_cons, List.mem_map, List.not_mem_nil, or_false] at hline
  rcases hline with hline | rfl | ⟨run, -, rfl⟩ | rfl
  · exact (isLine_of_mem_packedHead spelling line hline).1
  · exact (isLine_packedSize table.size).1
  · exact isLine_packedRow h spelling run
  · decide

theorem filterMap_wordDigits?_packedRow (spelling : Spelling) (db : Database) :
    ∀ runs : List Run, ((runs.map (packedRow spelling db)).map String.toList).filterMap wordDigits?
      = runs.map fun run => (Hex.upper 8 run.pack.toNat).toList
  | [] => rfl
  | run :: runs => by
    have ih := filterMap_wordDigits?_packedRow spelling db runs
    rw [List.map_cons, List.map_cons, List.map_cons,
      List.filterMap_cons_some (wordDigits?_packedRow spelling db run), ih]

theorem filterMap_wordDigits?_packedLines (spelling : Spelling) (table : Table) (db : Database) :
    ((packedLines spelling table db).map String.toList).filterMap wordDigits?
      = table.runs.toList.map fun run => (Hex.upper 8 run.pack.toNat).toList := by
  have hhead : ((packedHead spelling).map String.toList).filterMap wordDigits? = [] :=
    Text.filterMap_toList_eq_nil fun line hline => (isLine_of_mem_packedHead spelling line hline).2
  have hclose : wordDigits? "];".toList = none := rfl
  rw [packedLines_eq, List.map_append, List.filterMap_append, hhead, List.nil_append, List.map_cons,
    List.filterMap_cons_none (isLine_packedSize table.size).2, List.map_append,
    List.filterMap_append, filterMap_wordDigits?_packedRow, List.map_singleton,
    List.filterMap_cons_none hclose, List.filterMap_nil, List.append_nil]

/-- What is written piece by piece is read back piece by piece. -/
theorem mapM_map_eq_some {α β : Type} {write : α → β} {read : β → Option α}
    (h : ∀ a, read (write a) = some a) (as : List α) : (as.map write).mapM read = some as := by
  have hread : read ∘ write = fun a => pure a := funext h
  rw [List.mapM_map, hread, List.mapM_pure, List.map_id']
  rfl

theorem filterMap_wordDigits?_render {db : Database} (h : NamesFit db) (spelling : Spelling)
    (table : Table) :
    (Text.lines ((packed spelling).render table db).toList).filterMap wordDigits?
      = table.runs.toList.map fun run => (Hex.upper 8 run.pack.toNat).toList := by
  have hlines : ∀ line ∈ (packed spelling).lines table db, Text.IsLine line :=
    isLine_of_mem_packedLines h spelling table
  rw [render, endedLines, Text.lines_join hlines, lines, filterMap_wordDigits?_packedLines]

/-- The words of a packed artifact are the runs of its table. -/
theorem readPacked?_render {db : Database} (h : NamesFit db) (spelling : Spelling)
    (table : Table) :
    readPacked? ((packed spelling).render table db) = some table.runs.toList := by
  rw [readPacked?, filterMap_wordDigits?_render h, mapM_map_eq_some readWord?_upper]

end Packed

end CharRuns.Artifact
