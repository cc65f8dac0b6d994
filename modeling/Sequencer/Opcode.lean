import Sequencer.Text.Basic

/-!
# Opcodes

The opcodes of the source language, after synonyms are resolved. A load is one opcode whatever it
loads; which machine operation it becomes is decided by its destination.
-/

namespace Sequencer

inductive Opcode where
  | ld
  | ldCc
  | ldNc
  | call
  | jump
  | jumpC
  | jumpI
  | loop
  | loopR
  | ret
  | movd
  | noopC
  | setF
  | clf
  | sdtx
  | sdtxw
  | wait
  | txVal
  | txTemp
  | ldTemp
  | txBr
  | movTemp
  | unused0
  | unused1
  | unused2
  | unused3
deriving DecidableEq, Repr

/-- What operands an opcode takes. -/
inductive Family where
  | registerLoad
  | branch
  | singleImmediate
  | optionalImmediate
  | zeroOperand
deriving DecidableEq, Repr

namespace Opcode

def all : List Opcode :=
  [ld, ldCc, ldNc, call, jump, jumpC, jumpI, loop, loopR, ret, movd, noopC, setF, clf, sdtx, sdtxw,
    wait, txVal, txTemp, ldTemp, txBr, movTemp, unused0, unused1, unused2, unused3]

def mnemonic : Opcode → String
  | ld => "LD"
  | ldCc => "LDCC"
  | ldNc => "LDNC"
  | call => "CALL"
  | jump => "JUMP"
  | jumpC => "JUMPC"
  | jumpI => "JUMPI"
  | loop => "LOOP"
  | loopR => "LOOPR"
  | ret => "RETURN"
  | movd => "MOVD"
  | noopC => "NOOPC"
  | setF => "SETF"
  | clf => "CLF"
  | sdtx => "SDTX"
  | sdtxw => "SDTXW"
  | wait => "WAIT"
  | txVal => "TXVAL"
  | txTemp => "TXTEMP"
  | ldTemp => "LDTEMP"
  | txBr => "TXBR"
  | movTemp => "MOVTEMP"
  | unused0 => "unused0"
  | unused1 => "unused1"
  | unused2 => "unused2"
  | unused3 => "unused3"

/-- The opcode as it is named in a dump of a program. -/
def name : Opcode → String
  | ld => "Ld"
  | ldCc => "LdCc"
  | ldNc => "LdNc"
  | call => "Call"
  | jump => "Jump"
  | jumpC => "JumpC"
  | jumpI => "JumpI"
  | loop => "Loop"
  | loopR => "LoopR"
  | ret => "Return"
  | movd => "Movd"
  | noopC => "NoopC"
  | setF => "SetF"
  | clf => "Clf"
  | sdtx => "Sdtx"
  | sdtxw => "Sdtxw"
  | wait => "Wait"
  | txVal => "TxVal"
  | txTemp => "TxTemp"
  | ldTemp => "LdTemp"
  | txBr => "TxBr"
  | movTemp => "MovTemp"
  | unused0 => "Unused0"
  | unused1 => "Unused1"
  | unused2 => "Unused2"
  | unused3 => "Unused3"

def synonyms : List (String × Opcode) :=
  [("J", jump), ("JC", jumpC), ("JI", jumpI), ("LOAD", ld), ("LDREG", ld), ("NOOP", noopC)]

/-- The opcode a source token names. Letter case matters. -/
def ofToken? (token : Text) : Option Opcode :=
  (all.find? fun opcode ↦ opcode.mnemonic.toList == token).or
    ((synonyms.find? fun (synonym, _) ↦ synonym.toList == token).map Prod.snd)

def family : Opcode → Family
  | ld | ldCc | ldNc => .registerLoad
  | call | jump | jumpC | jumpI | loop | loopR => .branch
  | noopC => .optionalImmediate
  | ret | txTemp | ldTemp | txBr | movTemp => .zeroOperand
  | movd | setF | clf | sdtx | sdtxw | wait | txVal | unused0 | unused1 | unused2 | unused3 =>
    .singleImmediate

/-- Bits an immediate operand may have. The last unused opcode is allowed one bit more than its word
has room for. -/
def operandBits : Opcode → Nat
  | unused3 => 11
  | _ => 8

/-- Names that may stand before a bracketed source operand. -/
def sourceBases : Opcode → List String
  | movd => ["VM"]
  | _ => []

end Opcode

end Sequencer
