import Sequencer.Command
import Sequencer.Constant
import Sequencer.Report
import Sequencer.Source.Statement
import Sequencer.Symbol

/-!
# Reading source lines

The first pass turns lines into commands, symbols and constants. Flags on a line without an
instruction wait for the next line that has one. Faults are recorded and reading goes on, except
that a constant without a value ends the run.
-/

namespace Sequencer

inductive ReadingFault where
  | duplicateSymbol (name : Text) (firstLine : Nat)
  | badDefinition (name : Text) (fault : ExpressionFault)
  | duplicateConstant (name : Text) (kept : Int)
  | unknownOpcode (token : Text)
  | tooManyOperands (operands : List Text)
  | strandedFlags (flags : FlagSet)
deriving DecidableEq, Repr

/-- The most operands any opcode takes. -/
def maxOperands : Nat := 2

def spaced (operands : List Text) : String := String.ofList (Text.join [' '] operands)

def ReadingFault.message : ReadingFault → String
  | duplicateSymbol name firstLine =>
    s!"duplicate symbol {String.ofList name}, first defined at line {firstLine}"
  | badDefinition name fault =>
    let name := String.ofList (Text.upper name)
    s!"failure evaluating constant expression for {name}: {fault.message}"
  | duplicateConstant name kept =>
    let name := String.ofList (Text.upper name)
    s!"duplicate constant definition of {name} (keeping {kept})"
  | unknownOpcode token => s!"unrecognized opcode {String.ofList token}"
  | tooManyOperands operands =>
    s!"max {maxOperands} operands, but found {operands.length} ({spaced operands})"
  | strandedFlags flags =>
    s!"flags {String.ofList flags.letters} at end of program apply to no instruction"

/-- What is known between two lines: the tables so far, the flags that wait for an instruction, and
how many commands there are. -/
structure Reader where
  constants : Constants := .initial
  symbols : Symbols := .empty
  report : Report
  pending : FlagSet := .empty
  count : Nat := 0

namespace Reader

def start (warningLimit : Option Nat) : Reader := { report := .start warningLimit }

def error (reader : Reader) (line : Nat) (fault : ReadingFault) : Reader :=
  { reader with report := reader.report.error .parser (some line) fault.message }

def label (reader : Reader) (line : Nat) : Option Text → Reader
  | none => reader
  | some name =>
    match reader.symbols.define name { commandIndex := reader.count, line } with
    | .ok symbols => { reader with symbols }
    | .error first => reader.error line (.duplicateSymbol name first.line)

def definition (reader : Reader) (line : Nat) (name expression : Text) :
    Reader × Except Failure (Option Command) :=
  match reader.constants.evaluate expression with
  | .error fault =>
    let (report, failure) :=
      reader.report.fatal .parser (some line) (ReadingFault.badDefinition name fault).message
    ({ reader with report }, .error failure)
  | .ok value =>
    match reader.constants.define name value with
    | .ok constants => ({ reader with constants }, .ok none)
    | .error kept => (reader.error line (.duplicateConstant name kept), .ok none)

/-- An instruction takes all waiting flags, also when it is refused. -/
def instruction (reader : Reader) (line : Nat) (flags : FlagSet) :
    List Text → Reader × Option Command
  | [] => ({ reader with pending := reader.pending.union flags }, none)
  | token :: operands =>
    let flags := reader.pending.union flags
    let reader := { reader with pending := .empty }
    match Opcode.ofToken? token with
    | none => (reader.error line (.unknownOpcode token), none)
    | some opcode =>
      if maxOperands < operands.length then
        (reader.error line (.tooManyOperands operands), none)
      else
        ({ reader with count := reader.count + 1 },
          some { flags, opcode, rawOperands := operands, index := reader.count, line })

def line (reader : Reader) (source : SourceLine) : Reader × Except Failure (Option Command) :=
  let statement := Statement.ofText source.text
  let reader := reader.label source.number statement.label
  match statement.body with
  | .definition name expression => reader.definition source.number name expression
  | .instruction flags rest =>
    let (reader, command) := reader.instruction source.number flags rest
    (reader, .ok command)

def lines : Reader → List SourceLine → Reader × Except Failure (List Command)
  | reader, [] => (reader, .ok [])
  | reader, source :: rest =>
    match reader.line source with
    | (reader, .error failure) => (reader, .error failure)
    | (reader, .ok command) =>
      let (reader, commands) := lines reader rest
      (reader, commands.map (command.toList ++ ·))

/-- Flags that still wait at the end are worth a warning, at the last line. -/
def finish (reader : Reader) (lastLine : Option Nat) : Reader × Except Failure Unit :=
  if reader.pending.isEmpty then (reader, .ok ())
  else
    let (report, outcome) :=
      reader.report.warn .parser lastLine (ReadingFault.strandedFlags reader.pending).message
    ({ reader with report }, outcome)

/-- The whole first pass. -/
def read (reader : Reader) (source : List SourceLine) : Reader × Except Failure (List Command) :=
  match reader.lines source with
  | (reader, .error failure) => (reader, .error failure)
  | (reader, .ok commands) =>
    let (reader, outcome) := reader.finish (source.getLast?.map SourceLine.number)
    (reader, outcome.map fun _ ↦ commands)

end Reader

end Sequencer
