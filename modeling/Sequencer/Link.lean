import Sequencer.Layout

/-!
# Linking

The last pass lays the commands out, gives the symbols their addresses and encodes each command into
its word. Flags that a format has no letter for are dropped with a warning.
-/

namespace Sequencer

/-- Why a command has no word. The first three do not arise from commands that were resolved. -/
inductive EncodingFault where
  | noOperation (opcode : Opcode) (line : Nat)
  | noTarget (opcode : Opcode) (line : Nat)
  | noAddress (name : Text)
  | oddTarget (name : Text) (address : UInt16)
  | overflow (fault : FieldOverflow)
deriving DecidableEq, Repr

namespace EncodingFault

def message : EncodingFault → String
  | noOperation opcode line => s!"{opcode.mnemonic} at line {line} has no resolved encoding"
  | noTarget opcode line => s!"{opcode.mnemonic} at line {line} has no target"
  | noAddress name => s!"symbol {String.ofList name} has no address after linking"
  | oddTarget name address =>
    s!"branch target {String.ofList name} at odd address {address.toNat}"
  | overflow fault => fault.message

def isInternal : EncodingFault → Bool
  | noOperation _ _ | noTarget _ _ | noAddress _ => true
  | oddTarget _ _ | overflow _ => false

end EncodingFault

namespace Command

/-- The value field of a branch: half the address it goes to, which has to be even. -/
def branchValue (symbols : Symbols) (command : Command) : Except EncodingFault UInt16 :=
  match command.target? with
  | none => .error (.noTarget command.opcode command.line)
  | some name =>
    match (symbols.get? name).bind Symbol.address with
    | none => .error (.noAddress name)
    | some address =>
      if address % 2 = 0 then .ok (address >>> 1) else .error (.oddTarget name address)

def encode (symbols : Symbols) (command : Command) : Except EncodingFault Word :=
  match command.op? with
  | none => .error (.noOperation command.opcode command.line)
  | some op => do
    let value ←
      if op.isBranch then command.branchValue symbols else pure (command.constant?.getD 0)
    (op.format.encode command.registerIndex command.flags value).mapError .overflow

/-- Flags that the command's format has no letter for. -/
def droppedFlags (command : Command) : FlagSet :=
  match command.op? with
  | some op => command.flags.diff (.ofLetters op.format.flags)
  | none => .empty

end Command

namespace Draft

def warnDroppedFlags (report : Report) (command : Command) : Report × Except Failure Unit :=
  match command.op? with
  | none => (report, .ok ())
  | some op =>
    if command.droppedFlags.isEmpty then (report, .ok ())
    else report.warn .linker (some command.line)
      s!"flags {String.ofList command.droppedFlags.letters} have no effect on {op.format.mnemonic}"

def encodeCommand (symbols : Symbols) (report : Report) (command : Command) :
    Report × Except Failure Command :=
  match warnDroppedFlags report command with
  | (report, .error failure) => (report, .error failure)
  | (report, .ok ()) =>
    match command.encode symbols with
    | .ok code => (report, .ok { command with code })
    | .error fault =>
      if fault.isInternal then
        ((report.fatal .linker (some command.line) fault.message).1,
          .error (.internal fault.message))
      else
        (report.error .linker (some command.line) s!"{command.opcode.mnemonic}: {fault.message}",
          .ok command)

def encodeCommands (draft : Draft) : Draft × Except Failure Unit :=
  let (commands, report, outcome) :=
    sweep (encodeCommand draft.symbols) draft.report draft.commands
  ({ draft with commands, report }, outcome)

/-- The last pass. -/
def link (draft : Draft) : Draft × Except Failure Unit :=
  andThen (andThen (andThen draft.assignAddresses backfillSymbols) encodeCommands)
    fun draft ↦ (draft, draft.report.check .linker)

end Draft

end Sequencer
