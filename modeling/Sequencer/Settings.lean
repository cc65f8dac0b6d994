import Sequencer.Report

/-!
# Settings

Settings of a run. Branch words hold the target address halved, so branch targets are aligned to an
even number of words.
-/

namespace Sequencer

structure Settings where
  branchAlignment : UInt16 := 2
  /-- A run ends as soon as it has this many warnings. -/
  warningLimit : Option Nat := none
  includeLimit : Nat := 100
  fillWord : UInt16 := 0b111000000000000
  quiet : Bool := false
deriving DecidableEq, Repr

def Settings.validate (settings : Settings) : Except Failure Unit :=
  if settings.branchAlignment = 0 ∨ settings.branchAlignment % 2 ≠ 0 then
    .error (.badAlignment settings.branchAlignment)
  else .ok ()

end Sequencer
