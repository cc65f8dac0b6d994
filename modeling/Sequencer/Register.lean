import Sequencer.Text.Basic

/-!
# Registers

A load goes to one of eight general registers or to one of two counters. Registers and counters have
further names of their own.
-/

namespace Sequencer

inductive RegisterClass where
  | general
  | counter
  | nestedCounter
deriving DecidableEq, Repr

namespace RegisterClass

def all : List RegisterClass := [general, counter, nestedCounter]

def mnemonic : RegisterClass → String
  | general => "REG"
  | counter => "CC"
  | nestedCounter => "NC"

/-- The class as it is named in a dump of a program. -/
def name : RegisterClass → String
  | general => "Reg"
  | counter => "Cc"
  | nestedCounter => "Nc"

def spellings : List (String × RegisterClass) :=
  [("CC", counter), ("NC", nestedCounter), ("LC", counter), ("CLC", counter),
    ("NLC", nestedCounter), ("REG", general)]

def ofBase? (base : Text) : Option RegisterClass :=
  (spellings.find? fun (spelling, _) ↦ spelling.toList == base).map Prod.snd

/-- Bits of a constant loaded into a register of this class. -/
def sourceBits : RegisterClass → Nat
  | general => 8
  | counter | nestedCounter => 12

end RegisterClass

namespace Register

/-- Highest index of a general register. -/
def maxIndex : Nat := 7

def aliases : List (String × String) :=
  [("BAR", "REG0"), ("AR", "REG1"), ("CR", "REG2"), ("SP", "REG3"), ("DOR", "REG4"), ("VR", "REG4"),
    ("TEMP", "REG5"), ("SPFR", "REG6"), ("unused_REG7", "REG7")]

def resolveAlias (text : Text) : Text :=
  match aliases.find? fun (shown, _) ↦ shown.toList == text with
  | some (_, register) => register.toList
  | none => text

end Register

end Sequencer
