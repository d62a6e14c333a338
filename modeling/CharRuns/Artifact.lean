import CharRuns.Database
import CharRuns.Table

/-!
# Artifacts

A run table is written out as source code: a C++ header that declares the table, a C++ source
that defines it with one commented row a run, or a Rust module that holds it as packed words.
The enumeration of rules and its members are written in snake case or in Pascal case, as is the
custom of the language they are generated for, and the include guard of a header is the name of a
macro: ASCII letters, digits and underscores, with no digit in front.

An artifact is a list of lines; it can be joined into one text, or written line by line into a
sink. A sink takes a number of bytes in all and then no more. What does not fit is cut at the last
byte that does, and nothing is written behind a cut.
-/

namespace CharRuns

/-- How generated code spells the rule enumeration. -/
inductive Spelling where
  | snake
  | pascal
  deriving DecidableEq, Repr

namespace Spelling

/-- The name of the enumeration. -/
def typeName : Spelling → String
  | snake => "grammar_rule"
  | pascal => "GrammarRule"

/-- The name of a rule in the enumeration. -/
def member : Spelling → Rule → String
  | snake, rule => rule.name
  | pascal, .whitespace => "Whitespace"
  | pascal, .identifierStart => "IdentifierStart"
  | pascal, .identifierPart => "IdentifierPart"

end Spelling

/-- The text names a macro. -/
def isMacroName (text : String) : Bool :=
  match text.toList with
  | [] => false
  | c :: cs => (c == '_' || c.isAlpha) && cs.all fun c => c == '_' || c.isAlphanum

/-- The name of a preprocessor macro. -/
structure MacroName where
  text : String
  valid : isMacroName text = true
  deriving DecidableEq

namespace MacroName

/-- A text as the name of a macro, if it is one. -/
def ofText? (text : String) : Option MacroName :=
  if h : isMacroName text = true then some ⟨text, h⟩ else none

/-- The include guard of a header when none is chosen. -/
def defaultGuard : MacroName :=
  ⟨"CPRUN_HPP", by decide⟩

end MacroName

/-- What has been written, and how many bytes there is still room for. -/
structure Sink where
  room : Nat
  written : ByteArray

namespace Sink

/-- A sink into which nothing has been written. -/
def ofRoom (room : Nat) : Sink :=
  { room, written := .empty }

/-- Writes a text, or as many of its bytes as there is room for; tells whether all was written. -/
def write (s : Sink) (text : String) : Sink × Bool :=
  let bytes := text.toUTF8
  if bytes.size ≤ s.room then (⟨s.room - bytes.size, s.written ++ bytes⟩, true)
  else (⟨0, s.written ++ bytes.extract 0 s.room⟩, false)

/-- Writes texts one after the other, up to the first that does not fit. -/
def writeAll (s : Sink) : List String → Sink × Bool
  | [] => (s, true)
  | text :: texts =>
    match s.write text with
    | (s, true) => s.writeAll texts
    | (s, false) => (s, false)

end Sink

/-- What to generate from a table. -/
inductive Artifact where
  | header (guard : MacroName) (spelling : Spelling)
  | definition (headerFile : String) (spelling : Spelling)
  | packed (spelling : Spelling)
  deriving DecidableEq

namespace Artifact

/-- Why an artifact is not made, or not written. -/
inductive Fault where
  | invalidGuard (text : String)
  | sinkFull
  deriving DecidableEq, Repr

/-- A fault in words. -/
def Fault.message : Fault → String
  | invalidGuard text => s!"`{text}` is not a valid preprocessor identifier"
  | sinkFull => "cannot write generated source: failed to write whole buffer"

/-- The header that a definition includes when none is chosen. -/
def defaultHeaderFile : String := "cprun.hpp"

/-- The header with a given include guard, if that is the name of a macro. -/
def headerWith (guard : String) (spelling : Spelling) : Except Fault Artifact :=
  match MacroName.ofText? guard with
  | some name => .ok (header name spelling)
  | none => .error (.invalidGuard guard)

/-- The name in the comment on a run: that of its first code point. -/
def nameAt (db : Database) (n : Nat) : String :=
  match db.characterAt? n with
  | some character => character.name
  | none => "<unassigned>"

/-- Puts a comma behind every line but the last. -/
def withCommas : List String → List String
  | [] => []
  | [line] => [line]
  | line :: lines => (line ++ ",") :: withCommas lines

/-- The line of a rule in the enumeration of a header. -/
def headerMember (spelling : Spelling) (rule : Rule) : String :=
  s!"  {spelling.member rule} = {rule.code}"

/-- A C++ header: the enumeration of rules, the type of a row, and the table to be defined elsewhere
with `size` rows. -/
def headerLines (guard : MacroName) (spelling : Spelling) (size : Nat) : List String :=
  [ s!"#ifndef {guard.text}"
  , s!"#define {guard.text}"
  , ""
  , "#include <array>"
  , "#include <cstdint>"
  , ""
  , s!"enum class {spelling.typeName} \x7b" ]
  ++ withCommas (Rule.all.map (headerMember spelling)) ++
  [ "\x7d;"
  , ""
  , "struct cprun \x7b"
  , s!"  uint_least32_t code_point: {Run.startBits};"
  , s!"  uint_least32_t length: {Run.lengthBits};"
  , s!"  uint_least32_t rule: {Run.ruleBits};"
  , "\x7d;"
  , ""
  , s!"extern std::array<cprun, {size}> code_point_runs;"
  , ""
  , s!"#endif // {guard.text}" ]

/-- The row of a run in a definition, with a comment on it. -/
def definitionRow (spelling : Spelling) (db : Database) (run : Run) : String :=
  s!"  {run.display}, // {nameAt db run.start} ({spelling.member run.rule})"

/-- A C++ source that includes a header and defines the table row by row. -/
def definitionLines (headerFile : String) (spelling : Spelling) (table : Table) (db : Database) :
    List String :=
  [ s!"#include \"{headerFile}\""
  , s!"std::array<cprun, {table.size}> code_point_runs = \x7b\x7b" ]
  ++ table.runs.toList.map (definitionRow spelling db) ++
  [ "\x7d\x7d;" ]

/-- The line of a rule in the enumeration of a Rust module. -/
def packedMember (spelling : Spelling) (rule : Rule) : String :=
  s!"    {spelling.member rule} = {Binary.display rule.code},"

/-- The row of a run as a packed word, with a comment on it. -/
def packedRow (spelling : Spelling) (db : Database) (run : Run) : String :=
  s!"    0x{Hex.upper 8 run.pack.toNat}, // {CodePoint.display run.start} +{run.length} "
    ++ s!"{nameAt db run.start} ({spelling.member run.rule})"

/-- A Rust module: the enumeration of rules, the layout of a word, and the table word by word. -/
def packedLines (spelling : Spelling) (table : Table) (db : Database) : List String :=
  [ "// @generated by cprunc. Do not edit."
  , ""
  , "#[derive(Copy, Clone, Debug, PartialEq, Eq)]"
  , "#[repr(u8)]"
  , s!"pub enum {spelling.typeName} \x7b" ]
  ++ Rule.all.map (packedMember spelling) ++
  [ "\x7d"
  , ""
  , s!"pub const CODE_POINT_BITS: u32 = {Run.startBits};"
  , s!"pub const RUN_LENGTH_BITS: u32 = {Run.lengthBits};"
  , s!"pub const RULE_BITS: u32 = {Run.ruleBits};"
  , s!"pub const IDENTIFIER_PART_MASK: u8 = {Binary.display Rule.continuationMask};"
  , ""
  , s!"/// Code point in bits 0..{Run.startBits}, length in the next {Run.lengthBits}, "
      ++ s!"rule in the top {Run.ruleBits}."
  , s!"pub static CODE_POINT_RUNS: [u32; {table.size}] = [" ]
  ++ table.runs.toList.map (packedRow spelling db) ++
  [ "];" ]

/-- The lines of an artifact. The database gives the names in comments. -/
def lines (artifact : Artifact) (table : Table) (db : Database) : List String :=
  match artifact with
  | header guard spelling => headerLines guard spelling table.size
  | definition headerFile spelling => definitionLines headerFile spelling table db
  | packed spelling => packedLines spelling table db

/-- The lines, each with a line feed at its end. -/
def endedLines (artifact : Artifact) (table : Table) (db : Database) : List String :=
  (artifact.lines table db).map (· ++ "\n")

/-- The text of an artifact. -/
def render (artifact : Artifact) (table : Table) (db : Database) : String :=
  String.join (artifact.endedLines table db)

/-- Writes an artifact into a sink, up to the first line that does not fit. -/
def writeTo (artifact : Artifact) (table : Table) (db : Database) (sink : Sink) :
    Sink × Except Fault Unit :=
  match sink.writeAll (artifact.endedLines table db) with
  | (sink, true) => (sink, .ok ())
  | (sink, false) => (sink, .error .sinkFull)

end Artifact

end CharRuns
