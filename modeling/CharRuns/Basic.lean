/-!
# Text and search

What other modules need of plain text, and a search in sorted arrays.

* `Hex`: numbers written in base sixteen, padded with zeros to a least width, and read back in
  either case of the letters. `value?` reads what `digits` writes; the reader is stricter than a
  number syntax: no sign, no separator, at least one digit.
* `Binary`: small codes shown bit by bit.
* `Text`: white space, which is the characters with the Unicode property `White_Space`, and lines.
  A line ends at a line feed, or at a carriage return and a line feed together. What follows the
  last line feed is a line only if it is not empty, and there a carriage return belongs to the line.
* `Search`: `boundary p xs` is the number of elements at the front that satisfy `p`, when those
  that do all come before those that do not. The search reads about `log₂` of the elements.
-/

namespace CharRuns.Hex

/-- The digits of a number in lower case, at least `width` of them. -/
def digits (width n : Nat) : List Char :=
  (Nat.toDigits 16 n).leftpad width '0'

/-- A number in lower-case digits. -/
def lower (width n : Nat) : String :=
  String.ofList (digits width n)

/-- A number in upper-case digits. -/
def upper (width n : Nat) : String :=
  String.ofList ((digits width n).map Char.toUpper)

/-- The value of a digit in either case. -/
def digit? (c : Char) : Option Nat :=
  if '0' ≤ c ∧ c ≤ '9' then some (c.toNat - '0'.toNat)
  else if 'a' ≤ c ∧ c ≤ 'f' then some (c.toNat - 'a'.toNat + 10)
  else if 'A' ≤ c ∧ c ≤ 'F' then some (c.toNat - 'A'.toNat + 10)
  else none

/-- Continues a number read so far by further digits. -/
def extend? (n : Nat) : List Char → Option Nat
  | [] => some n
  | c :: cs => (digit? c).bind fun d => extend? (16 * n + d) cs

/-- The number that a non-empty list of digits writes. -/
def value? : List Char → Option Nat
  | [] => none
  | cs => extend? 0 cs

end CharRuns.Hex

namespace CharRuns.Binary

/-- `0b` and at least two digits in base two. -/
def display (n : Nat) : String :=
  "0b" ++ String.ofList ((Nat.toDigits 2 n).leftpad 2 '0')

end CharRuns.Binary

namespace CharRuns.Text

/-- The character has the property `White_Space`. -/
def isBlank (c : Char) : Bool :=
  let n := c.toNat
  (0x9 ≤ n && n ≤ 0xD) || n == 0x20 || n == 0x85 || n == 0xA0 || n == 0x1680
    || (0x2000 ≤ n && n ≤ 0x200A) || n == 0x2028 || n == 0x2029 || n == 0x202F
    || n == 0x205F || n == 0x3000

/-- A line of white space, or an empty one. -/
def isBlankLine (line : List Char) : Bool :=
  line.all isBlank

/-- A line without the carriage return at its end, if it has one. -/
def dropReturn (line : List Char) : List Char :=
  if line.getLast? = some '\r' then line.dropLast else line

/-- The lines among the pieces between line feeds, the last piece being unterminated. -/
def linesOfPieces : List (List Char) → List (List Char)
  | [] => []
  | [rest] => if rest.isEmpty then [] else [rest]
  | piece :: pieces => dropReturn piece :: linesOfPieces pieces

/-- The lines of a text, without what ends them. -/
def lines (text : List Char) : List (List Char) :=
  linesOfPieces (text.splitOn '\n')

end CharRuns.Text

namespace CharRuns.Search

variable {α : Type _}

/-- Whether the element at a position satisfies `p`; a position outside holds none. -/
def holdsAt (p : α → Bool) (xs : Array α) (i : Nat) : Bool :=
  xs[i]?.any p

/-- Narrows the `size` positions from `base` on down to one: the upper part is kept if its first
element satisfies `p`. -/
def narrow (p : α → Bool) (xs : Array α) (base size : Nat) : Nat :=
  if size ≤ 1 then base
  else
    let half := size / 2
    if holdsAt p xs (base + half) then narrow p xs (base + half) (size - half)
    else narrow p xs base (size - half)
termination_by size

/-- The first position whose element fails `p`, or the size if there is none. -/
def boundary (p : α → Bool) (xs : Array α) : Nat :=
  if xs.isEmpty then 0
  else
    let base := narrow p xs 0 xs.size
    if holdsAt p xs base then base + 1 else base

end CharRuns.Search
