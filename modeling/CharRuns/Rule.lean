import CharRuns.Category

/-!
# Grammar rules

What a lexer needs to know about a character: whether it separates tokens, may begin an
identifier, or may only continue one. The two-bit codes are chosen so that one mask answers
"may continue an identifier" (`continues_iff`), and most rules follow from the general category.
-/

namespace CharRuns

/-- The role a character plays in the lexical grammar. -/
inductive Rule where
  /-- Separates tokens. -/
  | whitespace
  /-- May begin an identifier, and continue it. -/
  | identifierStart
  /-- May continue an identifier but not begin one. -/
  | identifierPart
  deriving DecidableEq, Repr, Inhabited

namespace Rule

/-- Every rule, in the order in which generated code lists them. -/
def all : List Rule := [whitespace, identifierStart, identifierPart]

/-- The two-bit code; the code `0b10` is free. -/
def code : Rule → Nat
  | whitespace => 0b00
  | identifierStart => 0b01
  | identifierPart => 0b11

/-- The rule with a given code. -/
def ofCode? : Nat → Option Rule
  | 0b00 => some whitespace
  | 0b01 => some identifierStart
  | 0b11 => some identifierPart
  | _ => none

/-- Set in the code of every rule that may continue an identifier. -/
def continuationMask : Nat := 0b01

/-- The rule may continue an identifier. -/
def continues (r : Rule) : Bool :=
  r.code &&& continuationMask != 0

/-- The name in messages and, in snake case, in generated code. -/
def name : Rule → String
  | whitespace => "whitespace"
  | identifierStart => "identifier_start"
  | identifierPart => "identifier_part"

/-- A rule or its absence, as messages show it. -/
def describe : Option Rule → String
  | some r => r.name
  | none => "no rule"

theorem ofCode?_code (r : Rule) : ofCode? r.code = some r := by
  cases r <;> rfl

theorem code_of_ofCode? {n : Nat} {r : Rule} (h : ofCode? n = some r) : r.code = n := by
  unfold ofCode? at h
  split at h <;> simp_all [code] <;> subst h <;> rfl

theorem code_lt (r : Rule) : r.code < 4 := by
  cases r <;> decide

theorem continues_iff (r : Rule) : r.continues = true ↔ r ≠ whitespace := by
  cases r <;> decide

end Rule

/-- The rule a category implies: spaces separate, letters and letter-like numbers begin
identifiers, marks, digits and connectors continue them. -/
def Category.rule? : Category → Option Rule
  | spaceSeparator => some .whitespace
  | uppercaseLetter | lowercaseLetter | titlecaseLetter | modifierLetter | otherLetter
  | letterNumber => some .identifierStart
  | nonspacingMark | spacingMark | decimalNumber | connectorPunctuation => some .identifierPart
  | _ => none

end CharRuns
