import CharRuns.Generation

/-!
# A session of the program

What the program does with its arguments, over any host that reads and writes files and takes
text for the two output streams. The listing is read before anything is written, and nothing is
written unless the whole text was generated. The program gives up, with a status of its own, at an
argument that is no text, and where a stream does not take what is to be said there.
-/

namespace CharRuns

/-- Access to files and output streams. A failure is told in the words of the system. -/
structure Host (m : Type → Type) where
  readFile : String → m (Except String ByteArray)
  /-- Puts a text, in UTF-8, where a path leads to. -/
  writeFile : String → String → m (Except String Unit)
  /-- Takes text for the standard output. -/
  print : String → m (Except String Unit)
  /-- Takes text for the standard error. -/
  warn : String → m (Except String Unit)
  /-- Says on the standard error, in the words of the runtime, that the program gives up. -/
  giveUp : m Unit

namespace Session

/-- Why nothing is made of settings, or what was made is not delivered. -/
inductive Fault where
  | unreadable (path reason : String)
  | listing (fault : Listing.Fault)
  | generation (fault : Generation.Fault)
  | unwritable (path reason : String)
  | output (reason : String)
  deriving DecidableEq, Repr

/-- A fault in words. -/
def Fault.message : Fault → String
  | unreadable path reason => s!"cannot read {path}: {reason}"
  | listing fault => fault.message
  | generation fault => fault.message
  | unwritable path reason => s!"cannot write {path}: {reason}"
  | output reason => s!"cannot write to stdout: {reason}"

/-- The text that settings ask for, from what reading their listing file gave. -/
def textFrom (s : Settings) (content : Except String ByteArray) : Except Fault String :=
  match content with
  | .error reason => .error (.unreadable s.listing reason)
  | .ok bytes =>
    match String.fromUTF8? bytes with
    | none => .error (.unreadable s.listing "stream did not contain valid UTF-8")
    | some text =>
      match Listing.read text with
      | .error fault => .error (.listing fault)
      | .ok db =>
        match s.render db with
        | .error fault => .error (.generation fault)
        | .ok text => .ok text

/-- What is said when the version is asked for. -/
def version : List String := ["cprunc 0.1.0\n"]

/-- What is said when help is asked for, line by line. -/
def usage : List String :=
  List.map (· ++ "\n")
    [ "Generates tables mapping Unicode code points to lexer grammar rules"
    , ""
    , "Usage: cprunc [options]"
    , ""
    , "Options:"
    , "  -u, --unicode-data <path>  UnicodeData.txt to read (default: ./UnicodeData.txt)"
    , "  -f, --header-file <path>   Header included by the C++ source (default: cprun.hpp)"
    , "  --include-guard <name>     Header include guard macro (default: CPRUN_HPP)"
    , "  -o, --output <path>        Write to a file instead of stdout"
    , "  -h, --help                 Show this help message"
    , "  -V, --version              Show version information"
    , ""
    , "Output (pick one):"
    , "  --hpp                      C++ header declaring the table (default)"
    , "  -c, --cpp                  C++ source defining the table"
    , "  --rust                     Rust module with the packed table"
    , "  -d, --dump                 Decoded Unicode database, one entry per line" ]

/-- The exit status of a run that has done what was asked for. -/
def done : UInt32 := 0

/-- The exit status of a run that has been refused. -/
def refused : UInt32 := 1

/-- The exit status of a run that has given up. -/
def gaveUp : UInt32 := 101

variable {m : Type → Type} [Monad m] (host : Host m)

/-- Makes the text that settings ask for. -/
def generate (s : Settings) : m (Except Fault String) := do
  return textFrom s (← host.readFile s.listing)

/-- Takes a text where settings say. -/
def deliver (s : Settings) (text : String) : m (Except Fault Unit) := do
  match s.output with
  | some path =>
    match ← host.writeFile path text with
    | .ok () => return .ok ()
    | .error reason => return .error (.unwritable path reason)
  | none =>
    match ← host.print text with
    | .ok () => return .ok ()
    | .error reason => return .error (.output reason)

/-- Makes the text that settings ask for and delivers it. -/
def carryOut (s : Settings) : m (Except Fault Unit) := do
  match ← generate host s with
  | .ok text => deliver host s text
  | .error fault => return .error fault

/-- Says lines one after the other and ends with a status, or gives up at the first that is not
taken. -/
def say (stream : String → m (Except String Unit)) (status : UInt32) : List String → m UInt32
  | [] => return status
  | line :: lines => do
    match ← stream line with
    | .ok () => say stream status lines
    | .error _ =>
      host.giveUp
      return gaveUp

/-- What is said to a command line that is refused. -/
def complaint (fault : Arguments.Fault) : List String :=
  [s!"error: {fault.message}\n", "Run `cprunc --help` for usage.\n"]

/-- The exit status once settings have been carried out, or have not and it is said why. -/
def settle : Except Fault Unit → m UInt32
  | .ok () => return done
  | .error fault => say host host.warn refused [s!"error: {fault.message}\n"]

/-- Carries out what the process was called with and gives the exit status. -/
def run (arguments : List ByteArray) : m UInt32 := do
  match Arguments.parseBytes arguments with
  | none =>
    host.giveUp
    return gaveUp
  | some (.error fault) => say host host.warn refused (complaint fault)
  | some (.ok .help) => say host host.print done usage
  | some (.ok .version) => say host host.print done version
  | some (.ok (.generate s)) => settle host (← carryOut host s)

end Session

end CharRuns
