import CharRuns.Database
import CharRuns.Listing.Row

/-!
# Character listings

A listing is a text with one row a line, blank lines aside. Reading it gives a database: an
ordinary row defines one code point, and two rows marked first and last define the block between
them if no row stands between, and label and category agree. A listing that breaks a rule is
refused at the first line that does, except that a block left open is reported where it opens.
-/

namespace CharRuns.Listing

/-- A problem and the number of its line, from one. -/
structure Fault where
  line : Nat
  problem : Problem
  deriving DecidableEq, Repr

/-- A fault in words. -/
def Fault.message (f : Fault) : String :=
  s!"line {f.line}: {f.problem.message}"

/-- A row marked first that waits for its last. -/
structure Opening where
  line : Nat
  first : Nat
  label : List Char
  category : Category
  deriving DecidableEq, Repr

/-- The fault of a block that is not closed. -/
def Opening.fault (o : Opening) : Fault :=
  ⟨o.line, .unclosedBlock o.first⟩

/-- What has been read so far. -/
structure Progress where
  previous : Option Nat
  opening : Option Opening
  database : Database

namespace Progress

/-- Nothing has been read. -/
def start : Progress :=
  { previous := none, opening := none, database := .empty }

/-- A block's name is its label and the bracket that the ending closes. -/
def blockName (label : List Char) : String :=
  String.ofList (label ++ ['>'])

/-- Takes a row: a definition, or an end of a block. -/
def place (p : Progress) (line : Nat) (row : Row) : Except Fault Progress :=
  let previous := some row.codePoint
  match Mark.ofName row.name, p.opening with
  | .plain, none =>
    let character := ⟨String.ofList row.name, row.category⟩
    .ok ⟨previous, none, (p.database.define row.codePoint character).2⟩
  | .first label, none =>
    .ok ⟨previous, some ⟨line, row.codePoint, label, row.category⟩, p.database⟩
  | .last _, none => .error ⟨line, .unopenedBlock row.codePoint⟩
  | .last label, some o =>
    if o.label = label ∧ o.category = row.category then
      let block := ⟨o.first, row.codePoint, ⟨blockName label, row.category⟩⟩
      .ok ⟨previous, none, { p.database with blocks := p.database.blocks.push block }⟩
    else .error o.fault
  | _, some o => .error o.fault

/-- Takes the line with a given number. -/
def take (p : Progress) (number : Nat) (line : List Char) : Except Fault Progress :=
  if Text.isBlankLine line then .ok p
  else
    match Row.read p.previous line with
    | .error problem => .error ⟨number, problem⟩
    | .ok row => p.place number row

/-- Takes lines, the first of which has the number `number`. -/
def takeAll (p : Progress) (number : Nat) : List (List Char) → Except Fault Progress
  | [] => .ok p
  | line :: lines =>
    match p.take number line with
    | .error fault => .error fault
    | .ok p => p.takeAll (number + 1) lines

/-- What has been read, if no block is left open. -/
def finish (p : Progress) : Except Fault Database :=
  match p.opening with
  | some o => .error o.fault
  | none => .ok p.database

end Progress

/-- The database of the lines of a listing. -/
def readLines (lines : List (List Char)) : Except Fault Database :=
  (Progress.start.takeAll 1 lines).bind Progress.finish

/-- The database of a listing. -/
def read (text : String) : Except Fault Database :=
  readLines (Text.lines text.toList)

end CharRuns.Listing
