import CharRuns.CodePoint
import CharRuns.Category
import Std.Data.TreeMap

/-!
# The character database

A database holds characters defined one by one and blocks of code points that share a character.
A single definition hides the block around it, whichever came first. Blocks are kept in ascending
order and never overlap, so the block of a code point is found by binary search, and whether a
new block fits is seen at its two neighbours.

A database is dumped with one line for each entry: the code points, the name, and the short name of
the category in parentheses, as in `U+0041 LATIN CAPITAL LETTER A (Lu)` or
`U+3400..U+4DBF <CJK Ideograph> (Lo)`.
-/

namespace CharRuns

/-- What is known of an assigned code point. -/
structure Character where
  name : String
  category : Category
  deriving DecidableEq, Repr

/-- The code points from `first` to `last`, sharing a character. -/
structure Entry where
  first : Nat
  last : Nat
  character : Character
  deriving DecidableEq, Repr

/-- The code points of an entry. A block of one code point looks like a single one. -/
def Entry.displayRange (e : Entry) : String :=
  if e.last = e.first then CodePoint.display e.first
  else s!"{CodePoint.display e.first}..{CodePoint.display e.last}"

/-- The line of an entry. -/
def Entry.display (e : Entry) : String :=
  s!"{e.displayRange} {e.character.name} ({e.character.category.shortName})"

/-- The characters of the code points that are assigned. -/
structure Database where
  /-- Definitions of one code point. -/
  singles : Std.TreeMap Nat Character
  /-- Definitions of several, in ascending order. -/
  blocks : Array Entry

namespace Database

/-- Nothing is assigned. -/
def empty : Database :=
  { singles := ∅, blocks := #[] }

/-- The block that has the code point in it. -/
def blockAt? (db : Database) (n : Nat) : Option Entry :=
  match Search.boundary (fun block => block.first ≤ n) db.blocks with
  | 0 => none
  | i + 1 => db.blocks[i]?.filter (n ≤ ·.last)

/-- The character at a code point, or nothing if it is unassigned. -/
def characterAt? (db : Database) (n : Nat) : Option Character :=
  match db.singles[n]? with
  | some character => some character
  | none => (db.blockAt? n).map (·.character)

/-- The category of a code point, if it is assigned. -/
def categoryAt? (db : Database) (n : Nat) : Option Category :=
  (db.characterAt? n).map (·.category)

/-- Defines one code point, and tells which single definition this replaces. -/
def define (db : Database) (n : Nat) (character : Character) : Option Character × Database :=
  (db.singles[n]?, { db with singles := db.singles.insert n character })

/-- Why a block is refused. -/
inductive Fault where
  | invalidBlock (first last : Nat)
  | overlap (first last existingFirst existingLast : Nat)
  deriving DecidableEq, Repr

/-- A fault in words. -/
def Fault.message : Fault → String
  | invalidBlock first last =>
    s!"range {CodePoint.display first}..{CodePoint.display last} is empty or extends beyond "
      ++ CodePoint.display CodePoint.max
  | overlap first last existingFirst existingLast =>
    s!"range {CodePoint.display first}..{CodePoint.display last} overlaps "
      ++ s!"{CodePoint.display existingFirst}..{CodePoint.display existingLast}"

/-- The neighbour that a new block would overlap, the lower one first. The new block belongs at
position `i`. -/
def clash? (db : Database) (block : Entry) (i : Nat) : Option Entry :=
  let before := match i with
    | 0 => none
    | j + 1 => db.blocks[j]?
  (before.filter (block.first ≤ ·.last)).or (db.blocks[i]?.filter (·.first ≤ block.last))

/-- Defines every code point of a block with one character. -/
def defineBlock (db : Database) (block : Entry) : Except Fault Database :=
  if block.last < block.first ∨ CodePoint.max < block.last then
    .error (.invalidBlock block.first block.last)
  else
    let i := Search.boundary (fun b => b.first < block.first) db.blocks
    match db.clash? block i with
    | some b => .error (.overlap block.first block.last b.first b.last)
    | none => .ok { db with blocks := db.blocks.insertIdxIfInBounds i block }

/-- The entries for the single definitions, in ascending order. -/
def singleEntries (db : Database) : List Entry :=
  db.singles.toList.map fun (n, character) => { first := n, last := n, character }

/-- All definitions in ascending order; a single one comes before a block that starts with it. -/
def entries (db : Database) : List Entry :=
  db.singleEntries.merge db.blocks.toList fun a b => a.first ≤ b.first

/-- All entries, one a line. -/
def dump (db : Database) : String :=
  String.join (db.entries.map fun e => e.display ++ "\n")

end Database

end CharRuns
