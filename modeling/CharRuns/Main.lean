import CharRuns.Session

/-!
# The program

Sessions on the files and streams of the process.
-/

namespace CharRuns

/-- A failure in the words of the system, with its number. -/
def systemText (e : IO.Error) : String :=
  match e with
  | .alreadyExists _ code details | .otherError code details | .resourceBusy code details
  | .resourceVanished code details | .unsupportedOperation code details
  | .hardwareFault code details | .unsatisfiedConstraints code details
  | .illegalOperation code details | .protocolError code details | .timeExpired code details
  | .interrupted _ code details | .noFileOrDirectory _ code details
  | .invalidArgument _ code details | .permissionDenied _ code details
  | .resourceExhausted _ code details | .inappropriateType _ code details
  | .noSuchThing _ code details => s!"{details} (os error {code})"
  | .unexpectedEof | .userError _ => toString e

/-- Tells a failure instead of throwing it. -/
def told {α : Type} (action : IO α) : IO (Except String α) := do
  try
    return .ok (← action)
  catch e =>
    return .error (systemText e)

/-- The files and streams of the process. -/
def systemHost : Host IO where
  readFile path := told (IO.FS.withFile path .read fun file => file.readBinToEnd)
  writeFile path text := told (IO.FS.writeBinFile path text.toUTF8)
  print text := told do
    let output ← IO.getStdout
    output.putStr text
    output.flush
  warn text := told (IO.eprint text)
  giveUp := discard (told (IO.eprint "thread 'main' panicked\n"))

/-- The pieces of a text of bytes, each of which ends with a zero. -/
def endedByZero (bytes : ByteArray) : List ByteArray :=
  (bytes.toList.splitOn 0).dropLast.map fun piece => ⟨piece.toArray⟩

/-- What the process was called with, in the bytes that the system has kept of it. -/
def calledWith : IO (List ByteArray) :=
  endedByZero <$> IO.FS.withFile "/proc/self/cmdline" .read fun file => file.readBinToEnd

end CharRuns

/-- Runs the program with what the process was called with. -/
def main : IO UInt32 := do
  CharRuns.Session.run CharRuns.systemHost (← CharRuns.calledWith)
