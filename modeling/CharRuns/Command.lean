import CharRuns.Artifact

/-!
# Commands

What a command line asks for: the help text, the version, or an artifact made with given settings.

Arguments are read from left to right. An option takes its value from the next argument, whatever
that looks like, or, if it is long, from behind an equals sign. A mode may be repeated but not
changed. Help and version are granted where they stand, and the first argument that fits nowhere
is an error.

A process is given its arguments as bytes. Each is made into text when its turn comes, so one that
is no text is met only if those in front of it have not settled what the command line asks for.
-/

namespace CharRuns

/-- Which artifact is asked for. -/
inductive Mode where
  | header
  | definition
  | packed
  /-- The entries of the database, one a line. -/
  | dump
  deriving DecidableEq, Repr

/-- What an artifact is made of, and where it goes. -/
structure Settings where
  /-- The file that holds the character listing. -/
  listing : String
  /-- The header that a definition includes. -/
  headerFile : String
  /-- The macro that guards a header. -/
  includeGuard : String
  mode : Mode
  /-- The file to write; the standard output if there is none. -/
  output : Option String
  deriving DecidableEq, Repr

/-- The settings that no option has changed. -/
def Settings.default : Settings :=
  { listing := "./UnicodeData.txt"
    headerFile := Artifact.defaultHeaderFile
    includeGuard := MacroName.defaultGuard.text
    mode := .header
    output := none }

/-- What is to be done. -/
inductive Command where
  | generate (settings : Settings)
  | help
  | version
  deriving DecidableEq, Repr

end CharRuns

namespace CharRuns.Arguments

/-- Why arguments are refused. -/
inductive Fault where
  | unknownOption (text : String)
  | valueExpected (option : String)
  | needlessValue (option : String)
  | strayArgument (text : String)
  | modeConflict (first second : String)
  deriving DecidableEq, Repr

/-- A fault in words. -/
def Fault.message : Fault → String
  | unknownOption text => s!"unknown option `{text}`"
  | valueExpected option => s!"option `{option}` requires a value"
  | needlessValue option => s!"option `{option}` does not take a value"
  | strayArgument text => s!"unexpected argument `{text}`"
  | modeConflict first second => s!"`{second}` cannot be combined with `{first}`"

/-- A setting that an option gives a value. -/
inductive Target where
  | listing
  | headerFile
  | includeGuard
  | output
  deriving DecidableEq, Repr

/-- Settings with a value in the place of another. -/
def Target.set (target : Target) (value : String) (s : Settings) : Settings :=
  match target with
  | listing => { s with listing := value }
  | headerFile => { s with headerFile := value }
  | includeGuard => { s with includeGuard := value }
  | output => { s with output := some value }

/-- What an option does. -/
inductive Meaning where
  | help
  | version
  | set (target : Target)
  | mode (mode : Mode)
  deriving DecidableEq, Repr

/-- The meaning of an option, if it is known. -/
def Meaning.ofOption? : String → Option Meaning
  | "-h" | "--help" => some help
  | "-V" | "--version" => some version
  | "-u" | "--unicode-data" => some (set .listing)
  | "-f" | "--header-file" => some (set .headerFile)
  | "--include-guard" => some (set .includeGuard)
  | "-o" | "--output" => some (set .output)
  | "--hpp" => some (mode .header)
  | "-c" | "--cpp" => some (mode .definition)
  | "--rust" => some (mode .packed)
  | "-d" | "--dump" => some (mode .dump)
  | _ => none

/-- Two dashes in front. -/
def isLong : List Char → Bool
  | '-' :: '-' :: _ => true
  | _ => false

/-- Splits an argument at its first equals sign, if what stands before it is long. -/
def split (argument : String) : String × Option String :=
  let chars := argument.toList
  let option := chars.takeWhile (· ≠ '=')
  match chars.dropWhile (· ≠ '=') with
  | _ :: value =>
    if isLong option then (String.ofList option, some (String.ofList value)) else (argument, none)
  | [] => (argument, none)

/-- Text that is no option: an unknown one if a dash and more stand in front. -/
def refuse (text : String) : Fault :=
  match text.toList with
  | '-' :: _ :: _ => .unknownOption text
  | _ => .strayArgument text

section Read

variable {m : Type → Type} [Monad m] {α : Type} (text : α → m String)

/-- Reads arguments that follow others, and makes each into text when its turn comes. The others
have led to the settings `s`, and `chosen` is the last of them that chose a mode. -/
def readFrom (s : Settings) (chosen : Option String) : List α → m (Except Fault Command)
  | [] => return .ok (.generate s)
  | argument :: rest => do
    let (option, value) := split (← text argument)
    match Meaning.ofOption? option with
    | some .help => return .ok .help
    | some .version => return .ok .version
    | some (.set target) =>
      match value with
      | some value => readFrom (target.set value s) chosen rest
      | none =>
        match rest with
        | value :: rest => readFrom (target.set (← text value) s) chosen rest
        | [] => return .error (.valueExpected option)
    | some (.mode mode) =>
      match value, chosen with
      | some _, _ => return .error (.needlessValue option)
      | none, none => readFrom { s with mode } (some option) rest
      | none, some first =>
        if mode = s.mode then readFrom s (some option) rest
        else return .error (.modeConflict first option)
    | none => return .error (refuse option)

end Read

/-- What arguments come to that are texts. -/
def parse (arguments : List String) : Except Fault Command :=
  readFrom (m := Id) pure .default none arguments

/-- What the arguments of a process come to, the first of which is the name of the program and is
passed over. There is no outcome if the turn of one comes that is no text. -/
def parseBytes : List ByteArray → Option (Except Fault Command)
  | [] => some (parse [])
  | name :: arguments => do
    let _ ← String.fromUTF8? name
    readFrom String.fromUTF8? .default none arguments

end CharRuns.Arguments
