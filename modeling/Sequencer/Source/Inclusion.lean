import Sequencer.Files.Basic
import Sequencer.Files.Variables
import Sequencer.Report
import Sequencer.Source.Line

/-!
# Inclusion of files

    'include "path"   # comment

The source of a program is its file with the first include directive replaced by the lines of the
file it names, again and again until no directive is left. A limit on the number of replacements
ends this also when files include each other in a circle.
-/

namespace Sequencer

/-- What a run may ask of the system it runs on. -/
structure Host where
  read : Text → Except FileFault Bytes
  lookup : Text → Option Text

namespace Host

def readText (host : Host) (path : Text) : Except FileFault Text := do (← host.read path).toText

def ofFiles (fs : FileSystem) (environment : Environment) : Host :=
  ⟨fs.read, environment.get?⟩

end Host

namespace Inclusion

/-- The path of an include directive. A comment may follow it, and nothing else. -/
def target? (line : Text) : Option Text := do
  let rest ← "'include".toList.isPrefixOf? (Text.trim line)
  guard (rest.head?.any Text.isBlank)
  let quoted ← ['"'].isPrefixOf? (Text.trimStart rest)
  let (path, tail) ← Text.splitFirst '"' quoted
  guard ((Text.trimStart tail).head?.all (· == '#'))
  return path

inductive Fault where
  | unreadable (path : Text) (fault : FileFault)
  | tooMany (limit : Nat)
deriving DecidableEq, Repr

def Fault.message : Fault → String
  | unreadable path fault => s!"could not open {String.ofList path} for read: {fault.message}"
  | tooMany limit => s!"exceeded soft include limit of {limit} files"

/-- A line together with the path of the file it is from. -/
structure FileLine where
  path : Text
  line : SourceLine
deriving DecidableEq, Repr

def FileLine.target? (entry : FileLine) : Option Text := Inclusion.target? entry.line.text

def fileLines (path text : Text) : List FileLine :=
  (SourceLine.ofText text).map fun line ↦ { path, line }

/-- The path of the file that a directive includes. -/
def includedPath (host : Host) (entry : FileLine) (target : Text) : Text :=
  Path.resolve entry.path (Variables.expand host.lookup target)

def load (host : Host) (path : Text) (line : Option Nat) (report : Report) :
    Report × Except Failure (List FileLine) :=
  match host.readText path with
  | .ok text => (report, .ok (fileLines path text))
  | .error fault =>
    let (report, failure) := report.fatal .inclusion line (Fault.unreadable path fault).message
    (report, .error failure)

/-- Replace directives while `left` allows it. -/
def splice (host : Host) (limit : Nat) :
    (left : Nat) → Report → List FileLine → Report × Except Failure (List SourceLine)
  | left, report, pending =>
    let plain := (pending.takeWhile (·.target?.isNone)).map FileLine.line
    match pending.dropWhile (·.target?.isNone) with
    | [] => (report, .ok plain)
    | directive :: rest =>
      let line := some directive.line.number
      match left with
      | 0 =>
        let (report, failure) := report.fatal .inclusion line (Fault.tooMany limit).message
        (report, .error failure)
      | left + 1 =>
        let path := includedPath host directive (directive.target?.getD [])
        let report := report.info .inclusion line s!"including file {String.ofList path}"
        match load host path line report with
        | (report, .error failure) => (report, .error failure)
        | (report, .ok included) =>
          let (report, spliced) := splice host limit left report (included ++ rest)
          (report, spliced.map (plain ++ ·))

/-- The source lines of a file with all that it includes. -/
def loadSource (host : Host) (limit : Nat) (path : Text) (report : Report) :
    Report × Except Failure (List SourceLine) :=
  match load host path none report with
  | (report, .error failure) => (report, .error failure)
  | (report, .ok lines) => splice host limit limit report lines

end Inclusion

end Sequencer
