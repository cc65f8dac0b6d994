import Sequencer.Draft

/-!
# Layout

The first command stands at address zero, and each further one at the next address that is a
multiple of its alignment. Addresses are counted in 32 bits, and one that does not fit in 16 is
fatal. The words that are skipped belong to no command.
-/

namespace Sequencer

/-- Highest address of the program memory. -/
def maxAddress : Nat := 65535

def nextAddress (previous : Option UInt32) (alignment : UInt16) : UInt32 :=
  match previous with
  | none => 0
  | some address =>
    let step := (max alignment 1).toUInt32
    address + step - address % step

namespace Draft

/-- Place one command after the one at `previous`. -/
def placeCommand (state : Option UInt32 × Report) (command : Command) :
    (Option UInt32 × Report) × Except Failure Command :=
  let (previous, report) := state
  let address := nextAddress previous command.alignment
  if address.toNat ≤ maxAddress then
    ((some address, report), .ok { command with address := address.toUInt16 })
  else
    let (report, failure) :=
      report.fatal .linker (some command.line) s!"address {address.toNat} exceeds program memory"
    ((previous, report), .error failure)

def assignAddresses (draft : Draft) : Draft × Except Failure Unit :=
  let (commands, (_, report), outcome) := sweep placeCommand (none, draft.report) draft.commands
  ({ draft with commands, report }, outcome)

/-- Give a symbol the address of its command. A symbol without one is worth a warning. -/
def placeSymbol (commands : List Command) (report : Report) (name : Text) (symbol : Symbol) :
    Report × Except Failure Symbol :=
  match commands[symbol.commandIndex]? with
  | some command => (report, .ok { symbol with address := some command.address })
  | none =>
    let (report, outcome) := report.warn .linker (some symbol.line)
      s!"symbol {String.ofList name} labels no instruction"
    (report, outcome.map fun _ ↦ symbol)

def backfillSymbols (draft : Draft) : Draft × Except Failure Unit :=
  let (symbols, report, outcome) := draft.symbols.sweep (placeSymbol draft.commands) draft.report
  ({ draft with symbols, report }, outcome)

end Draft

end Sequencer
