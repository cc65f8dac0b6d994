import Sequencer.Bits
import Sequencer.Expression.Token
import Sequencer.Opcode
import Sequencer.Register

/-!
# Operand faults

All that can be wrong with the operands of a command, once it is known to be one.
-/

namespace Sequencer

inductive OperandFault where
  | wrongCount (opcode : Opcode) (needed found : Nat)
  | tooMany (opcode : Opcode) (found : Nat)
  | noneAllowed (opcode : Opcode) (operands : List Text)
  | unknownTarget (name : Text) (opcode : Opcode)
  | strayTarget (name : Text)
  | badBase (base source : Text)
  | badIndex (source : Text)
  | badExpression (source : Text) (fault : ExpressionFault)
  | outOfRange (value : Int) (bits : Nat)
  | unknownRegister (source : Text)
  | missingIndex (source : Text)
  | registerOutOfRange (index : Int)
  | noSubregister (kind : RegisterClass) (index : Int)
deriving DecidableEq, Repr

def OperandFault.message : OperandFault → String
  | wrongCount opcode 1 found => s!"{opcode.mnemonic} requires 1 operand, but found {found}"
  | wrongCount opcode needed found =>
    s!"{opcode.mnemonic} requires {needed} operands, but found {found}"
  | tooMany opcode found => s!"{opcode.mnemonic} has 1 optional operand, but found {found}"
  | noneAllowed opcode operands =>
    let listed := String.ofList (Text.join [' '] operands)
    s!"{opcode.mnemonic} has no operands, but found {operands.length} ({listed})"
  | unknownTarget name opcode =>
    s!"undeterminable destination address {String.ofList name} for {opcode.mnemonic}"
  | strayTarget name => s!"symbol {String.ofList name} does not label an instruction"
  | badBase base source =>
    s!"invalid base {String.ofList base} for source operand {String.ofList source}"
  | badIndex source => s!"malformed index in source operand {String.ofList source}"
  | badExpression source fault => s!"error evaluating '{String.ofList source}': {fault.message}"
  | outOfRange value bits =>
    s!"source constant {value} out of range, {bits} bits allow 0..={Bits.capacity bits - 1}"
  | unknownRegister source => s!"unrecognized destination register {String.ofList source}"
  | missingIndex source =>
    s!"REG requires an index 0..={Register.maxIndex}, found {String.ofList source}"
  | registerOutOfRange index =>
    s!"REG selector out of range (0,{Register.maxIndex}), found {index}"
  | noSubregister kind index => s!"{kind.mnemonic} has no sub-registers, found index {index}"

end Sequencer
