import Sequencer.Flag
import Sequencer.Machine.Format
import Sequencer.Register

/-!
# Commands

A command is an instruction of the source on its way to a machine word: first its operands are only
text, then they are resolved, then it gets an address and a code.
-/

namespace Sequencer

inductive Operand where
  | register (kind : RegisterClass) (index : Option UInt8)
  | address (symbol : Text)
  | constant (value : UInt16)
deriving DecidableEq, Repr

/-- The code of an instruction that does nothing for one cycle. -/
def idleCode : Word := 0b110100000000000

structure Command where
  flags : FlagSet
  opcode : Opcode
  rawOperands : List Text
  operands : List Operand := []
  index : Nat
  line : Nat
  alignment : UInt16 := 1
  address : UInt16 := 0
  code : Word := idleCode
deriving DecidableEq, Repr

namespace Command

/-- The machine operation of a command. That of a load is decided by its resolved destination. -/
def op? (command : Command) : Option MachineOp :=
  match command.opcode, command.operands with
  | .ld, .register .general _ :: _ => some .ldReg
  | .ld, .register .counter _ :: _ => some .ldCc
  | .ld, .register .nestedCounter _ :: _ => some .ldNc
  | opcode, _ => MachineOp.ofOpcode? opcode

def registerIndex (command : Command) : UInt16 :=
  let index := command.operands.findSome? fun
    | .register _ index => index
    | _ => none
  (index.map UInt8.toUInt16).getD 0

def constant? (command : Command) : Option UInt16 :=
  command.operands.findSome? fun
    | .constant value => some value
    | _ => none

def target? (command : Command) : Option Text :=
  command.operands.findSome? fun
    | .address symbol => some symbol
    | _ => none

end Command

end Sequencer
