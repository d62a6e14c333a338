import CharRuns.Pathname
import CharRuns.Session

/-!
# Workspaces

A workspace is a working directory held in memory, with what has been written to the two output
streams. A host is given that reads and writes files there. A file is written whole or not at
all. What is written to the device that is the standard output is printed.
-/

namespace CharRuns

/-- What a path leads to. -/
inductive Node where
  | file (content : ByteArray)
  | directory
  /-- The device that is the standard output. -/
  | output

/-- A working directory and the two output streams. -/
structure Workspace where
  nodes : List (Route × Node)
  printed : String
  warned : String
  /-- The standard output takes nothing. -/
  printFails : Bool

namespace Workspace

open Pathname (Refusal)

/-- A workspace with given files, before anything is written. -/
def ofNodes (nodes : List (Route × Node)) (printFails : Bool) : Workspace :=
  { nodes, printed := "", warned := "", printFails }

/-- The node at the end of a route. A node below a route makes it a directory. -/
def nodeAt? (w : Workspace) (route : Route) : Option Node :=
  if route = [] then some .directory
  else
    match w.nodes.lookup route with
    | some node => some node
    | none => if w.nodes.any fun node => route.isPrefixOf node.1 then some .directory else none

/-- What is found at a place. -/
def lookup? (w : Workspace) : Place → Option Node
  | .below route => w.nodeAt? route
  | .above | .root | .devices => some .directory
  | .output => some .output

/-- Follows components from a place on. Each is looked up in a directory; the last may lead to
nothing. -/
def follow (w : Workspace) (place : Place) : List String → Except Refusal Place
  | [] => .ok place
  | component :: rest =>
    match w.lookup? place with
    | some .directory =>
      match place.enter component with
      | .ok place => w.follow place rest
      | .error refusal => .error refusal
    | some (.file _) | some .output => .error .notDirectory
    | none => .error .noEntry

/-- The place that a path leads to. -/
def resolve (w : Workspace) (path : Pathname) : Except Refusal Place :=
  w.follow path.start path.components

/-- What the file at a path holds. A device holds nothing that could be read to an end. -/
def readFile (w : Workspace) (path : String) : Except Refusal ByteArray :=
  match (Pathname.ofText path).bind w.resolve with
  | .error refusal => .error refusal
  | .ok place =>
    match w.lookup? place with
    | some (.file content) => .ok content
    | some .directory => .error .isDirectory
    | some .output | none => .error .noEntry

/-- The workspace with a file at the end of a route. -/
def put (w : Workspace) (route : Route) (content : ByteArray) : Workspace :=
  { w with nodes := (route, .file content) :: w.nodes.filter (·.1 ≠ route) }

/-- The place that a file is to be written at. A path that names a directory is refused as one,
whatever its last name leads to. -/
def target (w : Workspace) (path : Pathname) : Except Refusal Place :=
  match path.parent? with
  | none => w.resolve path
  | some parent =>
    match w.resolve parent with
    | .ok _ => .error .isDirectory
    | .error refusal => .error refusal

/-- Text for the standard output; nothing can always be written. -/
def print (w : Workspace) (text : String) : Except Refusal Workspace :=
  if w.printFails ∧ text ≠ "" then .error .noSpace
  else .ok { w with printed := w.printed ++ text }

/-- Puts a text at the end of a path. -/
def writeFile (w : Workspace) (path text : String) : Except Refusal Workspace :=
  match (Pathname.ofText path).bind w.target with
  | .error refusal => .error refusal
  | .ok place =>
    match w.lookup? place, place with
    | some .directory, _ => .error .isDirectory
    | some .output, _ => w.print text
    | _, .below route => .ok (w.put route text.toUTF8)
    | _, _ => .error .noEntry

/-- Makes the change, or tells why it is refused. -/
def change (f : Workspace → Except Refusal Workspace) : StateM Workspace (Except String Unit) :=
  fun w =>
    match f w with
    | .ok w => (.ok (), w)
    | .error refusal => (.error refusal.message, w)

/-- A workspace as the host of a session. -/
def host : Host (StateM Workspace) where
  readFile path := fun w => ((w.readFile path).mapError Refusal.message, w)
  writeFile path text := change (·.writeFile path text)
  print text := change (·.print text)
  warn text := fun w => (.ok (), { w with warned := w.warned ++ text })
  giveUp := fun w => ((), { w with warned := w.warned ++ "thread 'main' panicked\n" })

end Workspace

end CharRuns
