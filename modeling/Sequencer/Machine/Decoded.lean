import Sequencer.Machine.CodeTree

/-!
# Decoded words

A word is decoded by following its bits through a code tree; the bits after the code are then split
by the standard format of the operation found. A word wider than 15 bits decodes to nothing.
-/

namespace Sequencer

/-- A decoded word, its fields in the order of the word. `flags` is the flag field as it stands, one
bit for each flag letter of the format. -/
structure Decoded where
  op : MachineOp
  register : UInt16
  flags : UInt16
  padding : UInt16
  value : UInt16
  raw : Word
deriving DecidableEq, Repr

/-- A field of a given width at the front of some bits, and the bits after it. Where fewer bits are
left than the field is wide, it is made of those. -/
def takeField (width : Nat) (bits : List Bool) : UInt16 × List Bool :=
  (UInt16.ofNat (Bits.toNat (bits.take width)), bits.drop width)

/-- Decoding is total, but it promises nothing for an operation whose code in the tree is longer
than its standard one. The standard format then asks for more bits than follow the code: its fields
run past the end of the word, and the last of them are cut short. A table that cuts words where the
standard formats do has no such operation. -/
def CodeTree.decode (tree : CodeTree) (word : Word) : Option Decoded :=
  if Bits.capacity wordBits ≤ word.toNat then none
  else do
    let (op, bits) ← tree.walk (Bits.ofNat wordBits word.toNat)
    let (register, bits) := takeField op.format.registerWidth bits
    let (flags, bits) := takeField op.format.flags.length bits
    let (padding, bits) := takeField op.format.padding.length bits
    let (value, _) := takeField op.format.valueWidth bits
    return { op, register, flags, padding, value, raw := word }

def decode (word : Word) : Option Decoded := CodeTree.standard.decode word

namespace Decoded

def mnemonic (d : Decoded) : String := d.op.format.mnemonic

def flagSet (d : Decoded) : FlagSet :=
  let layout := d.op.format.flags
  let held := layout.zip (Bits.ofNat layout.length d.flags.toNat)
  FlagSet.ofLetters ((held.filter Prod.snd).map Prod.fst)

/-- A branch word holds half the address it goes to. -/
def target? (d : Decoded) : Option UInt16 := if d.op.isBranch then some (d.value <<< 1) else none

/-- The word as an instruction of the source language, a branch target being written as a number. -/
def render (d : Decoded) : Text :=
  let flags := d.flagSet.letters.flatMap fun letter ↦ [letter, ' ']
  let mnemonic := d.mnemonic.toList
  let value := Numeral.markedHex 1 d.value.toNat
  flags ++ match d.op with
    | .ldReg => "LD REG".toList ++ Numeral.decimal d.register.toNat ++ ", ".toList ++ value
    | .ldCc => "LD CC, ".toList ++ value
    | .ldNc => "LD NC, ".toList ++ value
    | .ret | .txTemp | .ldTemp | .txBr | .movTemp => mnemonic
    | _ => match d.target? with
      | some target => mnemonic ++ ' ' :: Numeral.markedHex 4 target.toNat
      | none => mnemonic ++ ' ' :: value

end Decoded

end Sequencer
