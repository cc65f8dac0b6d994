import Sequencer.Link
import Sequencer.Settings
import Sequencer.Source.Inclusion
import Sequencer.Source.Reading

/-!
# Assembly

A run reads the source, resolves operands and links, each pass only if the one before did not fail.
Its report is kept whether it gives a program or not.
-/

namespace Sequencer

structure Program extends Draft where
  constants : Constants

namespace Program

def codes (program : Program) : List Word := program.commands.map Command.code

def addresses (program : Program) : List UInt16 := program.commands.map Command.address

/-- Words from address zero to the last command, skipped ones included. -/
def span (program : Program) : Nat :=
  match program.commands.getLast? with
  | some command => command.address.toNat + 1
  | none => 0

end Program

/-- Assemble lines into a report that may hold diagnostics already. -/
def assembleInto (settings : Settings) (report : Report) (source : List SourceLine) :
    Report × Except Failure Program :=
  match ({ report } : Reader).read source with
  | (reader, .error failure) => (reader.report, .error failure)
  | (reader, .ok commands) =>
    let draft : Draft := { commands, symbols := reader.symbols, report := reader.report }
    let (draft, outcome) :=
      Draft.andThen (draft.validate reader.constants settings.branchAlignment) Draft.link
    (draft.report, outcome.map fun _ ↦ { draft with constants := reader.constants })

def assemble (settings : Settings) (source : List SourceLine) : Report × Except Failure Program :=
  let report := Report.start settings.warningLimit
  match settings.validate with
  | .error failure => (report, .error failure)
  | .ok () => assembleInto settings report source

/-- Assemble a file with all that it includes. Its report starts with the inclusions. -/
def assembleFile (settings : Settings) (host : Host) (path : Text) :
    Report × Except Failure Program :=
  let report := Report.start settings.warningLimit
  match settings.validate with
  | .error failure => (report, .error failure)
  | .ok () =>
    match Inclusion.loadSource host settings.includeLimit path report with
    | (report, .error failure) => (report, .error failure)
    | (report, .ok source) => assembleInto settings report source

end Sequencer
