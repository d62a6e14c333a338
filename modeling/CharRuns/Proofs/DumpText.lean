import CharRuns.Database
import CharRuns.Proofs.IterationOrder
import CharRuns.Proofs.PackedText

/-!
# Reading a dump back

A line of a dump can be taken apart again, whatever the name in it looks like: the digits of a code
point end where a space or a dot stands, the category takes up the last five characters, and the
name is what lies between (`Entry.readLine?_display`). Unless a name breaks its line, `readDump?`
gets from the text the entries that the database goes through (`readDump?_dump`). So two databases
with the same dump have the same entries, and these settle the character of every code point
(`Reachable.dump_eq_iff`).
-/

namespace CharRuns

theorem Category.shortName_eq_pair (c : Category) : ∃ a b, c.shortName.toList = [a, b] := by
  cases c <;> exact ⟨_, _, rfl⟩

/-- A name, and behind it the short name of a category in parentheses. -/
def Character.read? (text : List Char) : Option Character :=
  match text.drop (text.length - 5) with
  | [' ', '(', a, b, ')'] =>
    (Category.ofShortName? (String.ofList [a, b])).map fun category =>
      ⟨String.ofList (text.take (text.length - 5)), category⟩
  | _ => none

theorem Character.read?_append (character : Character) :
    read? (character.name.toList ++ " (".toList ++ character.category.shortName.toList ++ [')'])
      = some character := by
  obtain ⟨a, b, hshort⟩ := character.category.shortName_eq_pair
  have hname : String.ofList [a, b] = character.category.shortName := by
    rw [← hshort, String.ofList_toList]
  have htext : character.name.toList ++ " (".toList ++ character.category.shortName.toList ++ [')']
      = character.name.toList ++ [' ', '(', a, b, ')'] := by
    rw [hshort, List.append_assoc, List.append_assoc]
    rfl
  have hlength : (character.name.toList ++ [' ', '(', a, b, ')']).length - 5
      = character.name.toList.length := by simp
  rw [htext, read?, hlength, List.drop_left]
  simp only [hname, Category.ofShortName?_shortName, List.take_left, String.ofList_toList,
    Option.map_some]

namespace Entry

open Artifact (number? number?_append number?_eq_none)

/-- The first and the last code point at the start of a line, and what follows the space. -/
def readRange? (line : List Char) : Option ((Nat × Nat) × List Char) := do
  let text ← line.dropPrefix? "U+".toList
  match number? Hex.value? " ".toList text with
  | some (n, rest) => return ((n, n), rest)
  | none =>
    let (first, rest) ← number? Hex.value? "..U+".toList text
    let (last, rest) ← number? Hex.value? " ".toList rest
    return ((first, last), rest)

/-- The entry that a line of a dump says. -/
def readLine? (line : List Char) : Option Entry := do
  let ((first, last), rest) ← readRange? line
  let character ← Character.read? rest
  return { first, last, character }

theorem toList_displayRange {e : Entry} (h : e.last ≠ e.first) : e.displayRange.toList
    = "U+".toList ++ (Hex.upper 4 e.first).toList ++ "..U+".toList
      ++ (Hex.upper 4 e.last).toList := by
  rw [displayRange, if_neg h]
  simp [CodePoint.display, toString]

theorem readRange?_displayRange (e : Entry) (rest : List Char) :
    readRange? (e.displayRange.toList ++ " ".toList ++ rest) = some ((e.first, e.last), rest) := by
  have hvalue (n : Nat) : Hex.value? (Hex.upper 4 n).toList = some n :=
    Hex.value?_eq_some_iff.2 (Hex.isNumeral_upper 4 n)
  have hdigits (n : Nat) : ∀ d ∈ (Hex.upper 4 n).toList, d.isAlphanum = true :=
    (Hex.isNumeral_upper 4 n).isAlphanum
  have hspace : ∃ c cs, " ".toList = c :: cs ∧ c.isAlphanum = false := ⟨_, _, rfl, rfl⟩
  have hdots : ∃ c cs, "..U+".toList = c :: cs ∧ c.isAlphanum = false := ⟨_, _, rfl, rfl⟩
  by_cases hlast : e.last = e.first
  · rw [displayRange, if_pos hlast, hlast]
    simp only [readRange?, CodePoint.display, String.toList_append, List.append_assoc,
      List.dropPrefix?_append_of_beq _ BEq.rfl, Option.bind_eq_bind, Option.bind_some,
      number?_append (hvalue _) (hdigits _) hspace]
    rfl
  · -- A dot stands behind the first digits, so these are not those of a single code point.
    have hblock (text : List Char) : number? Hex.value? " ".toList
        ((Hex.upper 4 e.first).toList ++ ("..U+".toList ++ text)) = none :=
      number?_eq_none (hdigits e.first) rfl ⟨_, _, rfl, by decide⟩ _
    simp only [readRange?, toList_displayRange hlast, List.append_assoc,
      List.dropPrefix?_append_of_beq _ BEq.rfl, Option.bind_eq_bind, Option.bind_some, hblock,
      number?_append (hvalue _) (hdigits _) hdots, number?_append (hvalue _) (hdigits _) hspace]
    rfl

theorem toList_display (e : Entry) : e.display.toList = e.displayRange.toList ++ " ".toList
    ++ (e.character.name.toList ++ " (".toList ++ e.character.category.shortName.toList
      ++ [')']) := by
  unfold display
  simp only [String.toList_append, toString, List.append_assoc]
  rfl

theorem readLine?_display (e : Entry) : readLine? e.display.toList = some e := by
  rw [readLine?, toList_display, readRange?_displayRange]
  simp only [Option.bind_eq_bind, Option.bind_some, Character.read?_append]
  rfl

theorem newline_not_mem_displayRange (e : Entry) : '\n' ∉ e.displayRange.toList := by
  by_cases hlast : e.last = e.first
  · rw [displayRange, if_pos hlast, CodePoint.display, String.toList_append, List.mem_append,
      not_or]
    exact ⟨by decide, Artifact.newline_not_mem_upper 4 e.first⟩
  · simp only [toList_displayRange hlast, List.mem_append, not_or]
    exact ⟨⟨⟨by decide, Artifact.newline_not_mem_upper 4 e.first⟩, by decide⟩,
      Artifact.newline_not_mem_upper 4 e.last⟩

theorem isLine_display {e : Entry} (h : '\n' ∉ e.character.name.toList) :
    Text.IsLine e.display := by
  have hshort : '\n' ∉ e.character.category.shortName.toList := by
    cases e.character.category <;> decide
  have hlist := toList_display e
  rw [← List.append_assoc _ _ [')']] at hlist
  refine Text.isLine_of_concat hlist ?_ (by decide) (by decide)
  simp only [List.mem_append, not_or]
  exact ⟨⟨newline_not_mem_displayRange e, by decide⟩, ⟨h, by decide⟩, hshort⟩

end Entry

namespace Database

open Entry

/-- The entries in the lines of a text. -/
def readDump? (text : String) : Option (List Entry) :=
  (Text.lines text.toList).mapM readLine?

variable {db other : Database}

/-- A dump says what the database goes through. -/
theorem readDump?_dump (hnames : ∀ e ∈ db.entries, '\n' ∉ e.character.name.toList) :
    readDump? db.dump = some db.entries := by
  have hlines : ∀ line ∈ db.entries.map display, Text.IsLine line := by
    intro line hline
    obtain ⟨e, he, rfl⟩ := List.mem_map.1 hline
    exact isLine_display (hnames e he)
  have hdump : db.dump = String.join ((db.entries.map display).map (· ++ "\n")) := by
    rw [dump, List.map_map]
    rfl
  rw [readDump?, hdump, Text.lines_join hlines, List.map_map]
  exact Artifact.mapM_map_eq_some readLine?_display db.entries

/-- Databases with ascending blocks that go through the same entries say the same of a code
point. -/
theorem characterAt?_eq_of_entries_eq (h : Ascending db.blocks.toList)
    (hother : Ascending other.blocks.toList) (hentries : db.entries = other.entries) (n : Nat) :
    db.characterAt? n = other.characterAt? n := by
  cases hfind : other.entries.find? fun e => decide (e.first = n ∧ e.last = n) with
  | some e =>
    rw [characterAt?_of_find?_single hother hfind]
    exact characterAt?_of_find?_single h (hentries ▸ hfind)
  | none =>
    obtain ⟨around, haround, hcharacter⟩ :=
      exists_around_of_find?_single h (hentries ▸ hfind)
    obtain ⟨around', haround', hcharacter'⟩ := exists_around_of_find?_single hother hfind
    obtain rfl : around' = around := by
      rw [hentries, haround'] at haround
      simpa only [Option.head?_toList] using congrArg List.head? haround
    rw [hcharacter, hcharacter']

/-- Unless a name breaks its line, databases have the same dump just if they go through the same
entries, and then they say the same of every code point. -/
theorem Reachable.dump_eq_iff (h : db.Reachable) (hother : other.Reachable)
    (hnames : ∀ e ∈ db.entries, '\n' ∉ e.character.name.toList)
    (hothernames : ∀ e ∈ other.entries, '\n' ∉ e.character.name.toList) :
    (db.dump = other.dump ↔ db.entries = other.entries)
      ∧ (db.dump = other.dump → ∀ n, db.characterAt? n = other.characterAt? n) := by
  have hread : db.dump = other.dump → db.entries = other.entries := by
    intro hdump
    have hentries := readDump?_dump hnames
    rw [hdump, readDump?_dump hothernames] at hentries
    exact (Option.some.inj hentries).symm
  refine ⟨⟨hread, fun hentries => ?_⟩, fun hdump => ?_⟩
  · rw [dump, dump, hentries]
  · exact characterAt?_eq_of_entries_eq h.orderly.ascending hother.orderly.ascending (hread hdump)

/-- A single definition and a block of one code point look the same. One name looks like the rest of
a block's line, and one is empty. -/
theorem Reachable.dump_eq_iff_block_of_one :
    let a : Character := ⟨"LATIN CAPITAL LETTER A (Lu)", .uppercaseLetter⟩
    let han : Character := ⟨"..U+2A6DF <Han> (Lo)", .otherLetter⟩
    let nameless : Character := ⟨"", .unassigned⟩
    let entries : List Entry :=
      [⟨0x41, 0x41, a⟩, ⟨0x20000, 0x2A6DF, han⟩, ⟨0x110000, 0x110000, nameless⟩]
    let db := empty.after [.single 0x41 han, .block ⟨0x20000, 0x2A6DF, han⟩, .single 0x41 a,
      .single 0x110000 nameless]
    let other := empty.after [.single 0x110000 nameless, .block ⟨0x41, 0x41, a⟩,
      .block ⟨0x20000, 0x2A6DF, han⟩]
    db.Reachable ∧ other.Reachable ∧ db.entries = entries ∧ other.entries = entries
      ∧ db.dump = other.dump ∧ ∀ n, db.characterAt? n = other.characterAt? n := by
  intro a han nameless entries db other
  have hreachable : db.Reachable := ⟨empty, [], _, .empty, rfl⟩
  have hother : other.Reachable := ⟨empty, [], _, .empty, rfl⟩
  have hsingles : db.singleEntries = [⟨0x41, 0x41, a⟩, ⟨0x110000, 0x110000, nameless⟩] := by
    decide +kernel
  have hblocks : db.blocks.toList = [⟨0x20000, 0x2A6DF, han⟩] := by decide +kernel
  have hentries : db.entries = entries := by
    rw [Database.entries, hsingles, hblocks]
    simp [entries]
  have hsingles' : other.singleEntries = [⟨0x110000, 0x110000, nameless⟩] := by decide +kernel
  have hblocks' : other.blocks.toList = [⟨0x41, 0x41, a⟩, ⟨0x20000, 0x2A6DF, han⟩] := by
    decide +kernel
  have hothers : other.entries = entries := by
    rw [Database.entries, hsingles', hblocks']
    simp [entries]
  have hnames : ∀ e ∈ entries, '\n' ∉ e.character.name.toList := by decide
  obtain ⟨hiff, hsame⟩ :=
    hreachable.dump_eq_iff hother (hentries ▸ hnames) (hothers ▸ hnames)
  have hdump : db.dump = other.dump := hiff.2 (hentries.trans hothers.symm)
  exact ⟨hreachable, hother, hentries, hothers, hdump, hsame hdump⟩

end Database

end CharRuns
