import Sequencer.Operand.Resolution
import Sequencer.Report

/-!
# Drafts

A draft is a program under assembly: its commands, its symbols and the report so far. The second
pass resolves the operands of every command, and asks for alignment of the symbols that branches
name and of the commands they go to.
-/

namespace Sequencer

structure Draft where
  commands : List Command
  symbols : Symbols
  report : Report

namespace Draft

/-- Run a pass only if what came before it did not fail. -/
def andThen (before : Draft × Except Failure Unit) (pass : Draft → Draft × Except Failure Unit) :
    Draft × Except Failure Unit :=
  match before with
  | (draft, .ok ()) => pass draft
  | (draft, .error failure) => (draft, .error failure)

/-- The symbol a branch is written with. -/
def namedTarget? (command : Command) : Option Text :=
  match command.opcode.family, command.rawOperands with
  | .branch, [name] => some name
  | _, _ => none

def namedTargets (draft : Draft) : List Text := draft.commands.filterMap namedTarget?

/-- Places of the commands that branches go to. -/
def targetIndices (draft : Draft) : List Nat :=
  draft.namedTargets.filterMap fun name ↦ (draft.symbols.get? name).map Symbol.commandIndex

def alignTarget (alignment : UInt16) (indices : List Nat) (place : Nat) (command : Command) :
    Command :=
  if indices.contains place then { command with alignment := max command.alignment alignment }
  else command

def alignSymbol (alignment : UInt16) (names : List Text) (name : Text) (symbol : Symbol) : Symbol :=
  if names.contains name then { symbol with alignment := max symbol.alignment alignment }
  else symbol

def setOperands (resolution : Resolution) (command : Command) : Command :=
  { command with operands := resolution.operands.getD command.operands }

def reportFaults (report : Report) (command : Command) (resolution : Resolution) : Report :=
  resolution.faults.foldl
    (fun report fault ↦ report.error .validator (some command.line) fault.message) report

/-- The second pass. It sees every command, and fails at its end if any error is on record. -/
def validate (constants : Constants) (alignment : UInt16) (draft : Draft) :
    Draft × Except Failure Unit :=
  let resolve := Command.resolve constants draft.symbols draft.commands.length
  let resolved := draft.commands.map fun command ↦ setOperands (resolve command) command
  let report := draft.commands.foldl
    (fun report command ↦ reportFaults report command (resolve command)) draft.report
  let indices := draft.targetIndices
  let names := draft.namedTargets
  ({ commands := resolved.mapIdx (alignTarget alignment indices)
     symbols := draft.symbols.mapWithKey (alignSymbol alignment names)
     report },
    report.check .validator)

end Draft

end Sequencer
