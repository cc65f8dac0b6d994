import Sequencer.Table

/-!
# Symbols

A symbol names the command that follows its label. Its address is known once the program is laid
out, and only if some command does follow.
-/

namespace Sequencer

structure Symbol where
  commandIndex : Nat
  line : Nat
  alignment : UInt16 := 1
  address : Option UInt16 := none
deriving DecidableEq, Repr

/-- Symbols under their names, each with its leading at sign. -/
abbrev Symbols := Table Symbol

def Symbol.precedes (a b : Symbol) : Bool :=
  a.line < b.line || (a.line = b.line && a.commandIndex ≤ b.commandIndex)

/-- Symbols by defining line; where lines and commands agree, names decide. -/
def Symbols.byLine (symbols : Symbols) : List (Text × Symbol) :=
  symbols.entries.mergeSort fun a b ↦ a.2.precedes b.2

end Sequencer
