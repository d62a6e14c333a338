/-!
# Pathnames

A pathname is followed component by component, from the working directory or, behind a slash, from
the root. Below the working directory a route says where one stands. Above it nothing is known
but that there are directories, and no name leads anywhere from there. From the root, which is its
own parent, names lead to the device that is the standard output and nowhere else.
-/

namespace CharRuns

/-- The components of a path below the working directory. -/
abbrev Route := List String

/-- Where one stands on a path. -/
inductive Place where
  /-- At the end of a route, where there need not be anything. -/
  | below (route : Route)
  /-- In a directory that holds the working directory. -/
  | above
  | root
  /-- In the directory of devices, `/dev`. -/
  | devices
  /-- At the device `/dev/stdout`. -/
  | output
  deriving DecidableEq, Repr

/-- Where a path starts, and what is followed from there. A component may be empty. -/
structure Pathname where
  start : Place
  components : List String
  deriving DecidableEq, Repr

namespace Pathname

/-- Why the system refuses to read or write. -/
inductive Refusal where
  | noEntry
  | notDirectory
  | isDirectory
  | noSpace
  | nameTooLong
  | invalidName
  deriving DecidableEq, Repr

/-- A refusal in the words of the system, with its number. -/
def Refusal.message : Refusal → String
  | noEntry => "No such file or directory (os error 2)"
  | notDirectory => "Not a directory (os error 20)"
  | isDirectory => "Is a directory (os error 21)"
  | noSpace => "No space left on device (os error 28)"
  | nameTooLong => "File name too long (os error 36)"
  | invalidName => "file name contained an unexpected NUL byte"

/-- The most bytes in the name of a file or directory. -/
def maxNameSize : Nat := 255

/-- The most bytes in a path. -/
def maxSize : Nat := 4095

/-- Splits a path at its slashes. An unusable text is refused before anything is followed. -/
def ofText (text : String) : Except Refusal Pathname :=
  if '\x00' ∈ text.toList then .error .invalidName
  else if text = "" then .error .noEntry
  else if maxSize < text.utf8ByteSize then .error .nameTooLong
  else
    let components := (text.toList.splitOn '/').map String.ofList
    .ok ⟨if components.head? = some "" then .root else .below [], components⟩

/-- What must lead to a directory if the path, by a slash at its end, names one: the path
without its last name. -/
def parent? (p : Pathname) : Option Pathname :=
  if p.components.getLast? = some "" then
    let names := p.components.reverse.dropWhile (· = "")
    some { p with components := names.tail.reverse ++ [""] }
  else none

end Pathname

namespace Place

/-- The directory that a place is in. -/
def parent : Place → Place
  | below [] | above => above
  | below route => below route.dropLast
  | root | devices => root
  | output => devices

/-- From a directory one component further. -/
def enter (place : Place) (component : String) : Except Pathname.Refusal Place :=
  if component = "" ∨ component = "." then .ok place
  else if component = ".." then .ok place.parent
  else if Pathname.maxNameSize < component.utf8ByteSize then .error .nameTooLong
  else
    match place with
    | below route => .ok (below (route ++ [component]))
    | root => if component = "dev" then .ok devices else .error .noEntry
    | devices => if component = "stdout" then .ok output else .error .noEntry
    | above | output => .error .noEntry

end Place

end CharRuns
