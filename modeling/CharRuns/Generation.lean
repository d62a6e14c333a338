import CharRuns.Classifier
import CharRuns.Command
import CharRuns.Encoder
import CharRuns.Listing

/-!
# Generating what the settings ask for

From a database to the text of an artifact. The run table of a database comes of all code points
from zero to the last, classified and encoded in order, and is checked before it is given out. The
include guard is looked at first, then the standard overrides, and a dump needs neither.
-/

namespace CharRuns

/-- Why a database has no table. -/
inductive Tabulation.Fault where
  | classifier (fault : Classifier.Fault)
  | encoder (fault : Encoder.Fault)
  | table (defect : Table.Defect)
  deriving DecidableEq, Repr

/-- A fault in words. -/
def Tabulation.Fault.message : Tabulation.Fault → String
  | classifier fault => fault.message
  | encoder fault => fault.message
  | table defect => defect.message

namespace Classifier

/-- The rule of a code point with its category in a database. -/
def verdict (c : Classifier) (db : Database) (n : Nat) : Option Rule :=
  c.classify n (db.categoryAt? n)

/-- The run table of a database. -/
def tabulate (c : Classifier) (db : Database) : Except Tabulation.Fault Table :=
  match (Encoder.empty.feedAlong (c.verdict db) .codeSpace).bind Encoder.finish with
  | .error fault => .error (.encoder fault)
  | .ok table =>
    match table.check with
    | .error defect => .error (.table defect)
    | .ok () => .ok table

end Classifier

namespace Generation

/-- Why no artifact is made. -/
inductive Fault where
  | artifact (fault : Artifact.Fault)
  | tabulation (fault : Tabulation.Fault)
  deriving DecidableEq, Repr

/-- A fault in words. -/
def Fault.message : Fault → String
  | artifact fault => fault.message
  | tabulation fault => fault.message

/-- The text of an artifact for the standard table of a database. -/
def renderStandard (artifact : Artifact) (db : Database) : Except Fault String :=
  match Classifier.standardFor db with
  | .error fault => .error (.tabulation (.classifier fault))
  | .ok classifier =>
    match classifier.tabulate db with
    | .error fault => .error (.tabulation fault)
    | .ok table => .ok (artifact.render table db)

end Generation

/-- The text that settings ask for. -/
def Settings.render (s : Settings) (db : Database) : Except Generation.Fault String :=
  match s.mode with
  | .dump => .ok db.dump
  | .header =>
    match Artifact.headerWith s.includeGuard .snake with
    | .error fault => .error (.artifact fault)
    | .ok artifact => Generation.renderStandard artifact db
  | .definition => Generation.renderStandard (.definition s.headerFile .snake) db
  | .packed => Generation.renderStandard (.packed .pascal) db

end CharRuns
