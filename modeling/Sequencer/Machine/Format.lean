import Sequencer.Bits
import Sequencer.Flag
import Sequencer.Machine.Operation
import Sequencer.Text.Numeral

/-!
# Instruction formats

A machine word has 15 bits. From the highest bit down it holds the code of its operation, a register
select, one bit for each flag letter of the format, padding, and a value. `Format.encode` packs the
fields into a word by arithmetic, each field shifting what stands before it.
-/

namespace Sequencer

abbrev Word := UInt16

def wordBits : Nat := 15

structure Format where
  op : MachineOp
  mnemonic : String
  code : Text
  flags : Text
  registerWidth : Nat
  padding : Text
  valueWidth : Nat
deriving DecidableEq, Repr

inductive OperandField where
  | register
  | immediate
deriving DecidableEq, Repr

def OperandField.name : OperandField → String
  | register => "register select"
  | immediate => "immediate"

structure FieldOverflow where
  field : OperandField
  value : UInt16
  width : Nat
deriving DecidableEq, Repr

def FieldOverflow.message (fault : FieldOverflow) : String :=
  s!"{fault.field.name} value {fault.value.toNat} does not fit in {fault.width} bits"

namespace Machine

structure Field where
  width : Nat
  value : Nat
deriving DecidableEq, Repr

/-- A field written out as digits: the digit one stands for a set bit, every other character for a
clear one. -/
def Field.ofDigits (digits : Text) : Field := ⟨digits.length, Bits.toNat (digits.map (· == '1'))⟩

def Field.ofFlags (layout : Text) (flags : FlagSet) : Field :=
  ⟨layout.length, Bits.toNat (layout.map flags.hasLetter)⟩

def totalWidth (fields : List Field) : Nat := fields.foldl (fun n field ↦ n + field.width) 0

def pack (fields : List Field) : Nat :=
  fields.foldl (fun n field ↦ n * Bits.capacity field.width + field.value) 0

end Machine

namespace Format

open Machine

/-- Bits the format asks for. Digits and letters count with their length in bytes. -/
def width (format : Format) : Nat :=
  Text.byteLength format.code + format.registerWidth + Text.byteLength format.flags +
    Text.byteLength format.padding + format.valueWidth

def fields (format : Format) (register : UInt16) (flags : FlagSet) (value : UInt16) : List Field :=
  [.ofDigits format.code, ⟨format.registerWidth, register.toNat⟩, .ofFlags format.flags flags,
    .ofDigits format.padding, ⟨format.valueWidth, value.toNat⟩]

/-- The word of an instruction. Flags the format has no letter for are dropped, and the fields start
at the highest bit of the word. -/
def encode (format : Format) (register : UInt16) (flags : FlagSet) (value : UInt16) :
    Except FieldOverflow Word :=
  if Bits.capacity format.registerWidth ≤ register.toNat then
    .error ⟨.register, register, format.registerWidth⟩
  else if Bits.capacity format.valueWidth ≤ value.toNat then
    .error ⟨.immediate, value, format.valueWidth⟩
  else
    let fields := format.fields register flags value
    .ok (UInt16.ofNat (pack fields * Bits.capacity (wordBits - totalWidth fields)))

end Format

namespace MachineOp

/-- A format from its parts, in the order in which they stand in the word. -/
def layout (op : MachineOp) (mnemonic code : String) (registerWidth : Nat) (flags padding : String)
    (valueWidth : Nat) : Format where
  op := op
  mnemonic := mnemonic
  code := code.toList
  flags := flags.toList
  registerWidth := registerWidth
  padding := padding.toList
  valueWidth := valueWidth

def format : MachineOp → Format
  | ldCc => layout ldCc "LDCC" "000" 0 "" "" 12
  | ldNc => layout ldNc "LDNC" "001" 0 "" "" 12
  | call => layout call "CALL" "01000" 0 "" "" 10
  | jump => layout jump "JUMP" "01001" 0 "" "" 10
  | jumpC => layout jumpC "JUMPC" "01010" 0 "" "" 10
  | jumpI => layout jumpI "JUMPI" "01011" 0 "" "" 10
  | loop => layout loop "LOOP" "01100" 0 "" "" 10
  | loopR => layout loopR "LOOPR" "01101" 0 "" "" 10
  | ret => layout ret "RETURN" "0111000" 0 "" "00000000" 0
  | unused0 => layout unused0 "unused0" "0111001" 0 "" "" 8
  | setF => layout setF "SETF" "0111010" 0 "" "" 8
  | clf => layout clf "CLF" "0111011" 0 "" "" 8
  | sdtx => layout sdtx "SDTX" "0111100" 0 "" "" 8
  | sdtxw => layout sdtxw "SDTXW" "0111101" 0 "" "" 8
  | unused1 => layout unused1 "unused1" "0111110" 0 "" "" 8
  | wait => layout wait "WAIT" "0111111" 0 "" "" 8
  | ldReg => layout ldReg "LDREG" "10" 3 "SA" "" 8
  | movd => layout movd "MOVD" "1100" 0 "BSA" "" 8
  | noopC => layout noopC "NOOPC" "1101" 0 "BSA" "" 8
  | txVal => layout txVal "TXVAL" "111000" 0 "K" "" 8
  | txTemp => layout txTemp "TXTEMP" "111001" 0 "K" "00000000" 0
  | ldTemp => layout ldTemp "LDTEMP" "111010" 0 "B" "00000000" 0
  | txBr => layout txBr "TXBR" "111011" 0 "B" "00000000" 0
  | movTemp => layout movTemp "MOVTEMP" "111100" 0 "B" "00000000" 0
  | unused2 => layout unused2 "unused2" "111101" 0 "" "" 9
  | unused3 => layout unused3 "unused3" "11111" 0 "" "" 10

end MachineOp

/-- The instruction formats of the machine, in the order of the operations. -/
def Format.standard : List Format := MachineOp.all.map MachineOp.format

end Sequencer
