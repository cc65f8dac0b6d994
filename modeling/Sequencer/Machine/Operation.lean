import Sequencer.Opcode

/-!
# Machine operations

One operation for each instruction format of the machine. Loads are told apart by destination here;
every other operation belongs to the opcode of its name.
-/

namespace Sequencer

inductive MachineOp where
  | ldCc
  | ldNc
  | call
  | jump
  | jumpC
  | jumpI
  | loop
  | loopR
  | ret
  | unused0
  | setF
  | clf
  | sdtx
  | sdtxw
  | unused1
  | wait
  | ldReg
  | movd
  | noopC
  | txVal
  | txTemp
  | ldTemp
  | txBr
  | movTemp
  | unused2
  | unused3
deriving DecidableEq, Repr

namespace MachineOp

def all : List MachineOp :=
  [ldCc, ldNc, call, jump, jumpC, jumpI, loop, loopR, ret, unused0, setF, clf, sdtx, sdtxw, unused1,
    wait, ldReg, movd, noopC, txVal, txTemp, ldTemp, txBr, movTemp, unused2, unused3]

/-- The operation's place among all operations. -/
def number (op : MachineOp) : Nat := all.idxOf op

def opcode : MachineOp → Opcode
  | ldCc | ldNc | ldReg => .ld
  | call => .call
  | jump => .jump
  | jumpC => .jumpC
  | jumpI => .jumpI
  | loop => .loop
  | loopR => .loopR
  | ret => .ret
  | unused0 => .unused0
  | setF => .setF
  | clf => .clf
  | sdtx => .sdtx
  | sdtxw => .sdtxw
  | unused1 => .unused1
  | wait => .wait
  | movd => .movd
  | noopC => .noopC
  | txVal => .txVal
  | txTemp => .txTemp
  | ldTemp => .ldTemp
  | txBr => .txBr
  | movTemp => .movTemp
  | unused2 => .unused2
  | unused3 => .unused3

/-- The operation as it is named in a listing of decoded words. -/
def name : MachineOp → String
  | ldCc => "LdCc"
  | ldNc => "LdNc"
  | ldReg => "LdReg"
  | op => op.opcode.name

def isBranch : MachineOp → Bool
  | call | jump | jumpC | jumpI | loop | loopR => true
  | _ => false

/-- The operation of an opcode that has just one. -/
def ofOpcode? : Opcode → Option MachineOp
  | .ld => none
  | .ldCc => some ldCc
  | .ldNc => some ldNc
  | opcode => all.find? fun op ↦ op.opcode = opcode

end MachineOp

end Sequencer
