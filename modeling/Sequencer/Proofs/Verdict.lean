import Mathlib
import Sequencer.Proofs.Table
import Sequencer.Proofs.Targets

/-!
# The verdict of validation

Validation goes from command to command. On its way it asks for alignments, of symbols and of
commands before and behind, and still it judges each command by its own rule alone. It succeeds just
where every command is accepted, gives accepted commands the operands of their rule, and of all else
it changes alignments only.
-/

namespace Sequencer

namespace Draft

/-! ## The pass, command by command -/

section

variable (constants : Constants) (alignment : UInt16)

/-- The draft of the first commands. -/
def first (draft : Draft) (n : ℕ) : Draft := { draft with commands := draft.commands.take n }

/-- The draft after its first commands were visited. -/
def visited (draft : Draft) (n : ℕ) : Draft :=
  let resolve := Command.resolve constants draft.symbols draft.commands.length
  { commands := draft.commands.mapIdx fun place command ↦
      alignTarget alignment (draft.first n).targetIndices place
        (if place < n then setOperands (resolve command) command else command)
    symbols := draft.symbols.mapWithKey (alignSymbol alignment (draft.first n).namedTargets)
    report := (draft.first n).commands.foldl
      (fun report command ↦ reportFaults report command (resolve command)) draft.report }

end

/-! ## The verdict -/

section

variable (constants : Constants) (alignment : UInt16) (draft : Draft)

end

end Draft

end Sequencer
