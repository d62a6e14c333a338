import CharRuns.Category
import CharRuns.CodePoint

/-!
# Rows of a character listing

A row has fifteen fields between semicolons, of which the first three count: the code point in
hexadecimal, the name and the short name of the category. The code points of successive rows
ascend. A name that ends in `, First>` or `, Last>` marks an end of a block, and what stands
before that is the label of the block.
-/

namespace CharRuns.Listing

/-- How many fields a row has. -/
def fieldCount : Nat := 15

/-- What is wrong with a row, or with where it stands. -/
inductive Problem where
  | fieldCount (found : Nat)
  | notHexadecimal (text : String)
  | outOfRange (codePoint : Nat)
  | outOfOrder (previous codePoint : Nat)
  | unknownCategory (codePoint : Nat) (text : String)
  | unclosedBlock (first : Nat)
  | unopenedBlock (codePoint : Nat)
  deriving DecidableEq, Repr

/-- A problem in words. -/
def Problem.message : Problem → String
  | fieldCount found => s!"expected {Listing.fieldCount} fields, found {found}"
  | notHexadecimal text => s!"`{text}` is not a hexadecimal code point"
  | outOfRange n => s!"{CodePoint.display n} is beyond {CodePoint.display CodePoint.max}"
  | outOfOrder previous n =>
    s!"{CodePoint.display n} does not follow {CodePoint.display previous}; entries must ascend"
  | unknownCategory n text =>
    s!"unknown general category `{text}` for {CodePoint.display n}"
  | unclosedBlock first =>
    s!"range opened at {CodePoint.display first} is not closed by a matching `Last>` entry"
  | unopenedBlock n => s!"range end {CodePoint.display n} has no matching `First>` entry"

/-- The fields that count. -/
structure Row where
  codePoint : Nat
  name : List Char
  category : Category
  deriving DecidableEq, Repr

/-- Reads the code point of a row that follows one with code point `previous`. -/
def readCodePoint (previous : Option Nat) (field : List Char) : Except Problem Nat :=
  match CodePoint.read? field with
  | none => .error (.notHexadecimal (String.ofList field))
  | some n =>
    if CodePoint.max < n then .error (.outOfRange n)
    else
      match previous with
      | none => .ok n
      | some p => if n ≤ p then .error (.outOfOrder p n) else .ok n

/-- Reads a row that follows one with code point `previous`. -/
def Row.read (previous : Option Nat) (line : List Char) : Except Problem Row :=
  match line.splitOn ';' with
  | codePoint :: name :: category :: others =>
    if others.length + 3 = Listing.fieldCount then
      match readCodePoint previous codePoint with
      | .error problem => .error problem
      | .ok n =>
        match Category.ofShortName? (String.ofList category) with
        | none => .error (.unknownCategory n (String.ofList category))
        | some c => .ok ⟨n, name, c⟩
    else .error (.fieldCount (others.length + 3))
  | few => .error (.fieldCount few.length)

/-- What the name of a row says about blocks. -/
inductive Mark where
  | plain
  | first (label : List Char)
  | last (label : List Char)
  deriving DecidableEq, Repr

/-- What stands before an ending, if the text has that ending. -/
def before? (ending text : List Char) : Option (List Char) :=
  if ending.isSuffixOf text then some (text.take (text.length - ending.length)) else none

/-- How the name ends that opens a block. -/
def firstEnding : List Char := [',', ' ', 'F', 'i', 'r', 's', 't', '>']

/-- How the name ends that closes a block. -/
def lastEnding : List Char := [',', ' ', 'L', 'a', 's', 't', '>']

/-- The mark of a row with a given name. -/
def Mark.ofName (name : List Char) : Mark :=
  match before? firstEnding name with
  | some label => first label
  | none =>
    match before? lastEnding name with
    | some label => last label
    | none => plain

end CharRuns.Listing
