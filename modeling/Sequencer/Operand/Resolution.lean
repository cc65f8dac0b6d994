import Sequencer.Command
import Sequencer.Constant
import Sequencer.Operand.Fault
import Sequencer.Symbol

/-!
# Operand resolution

What the written operands of one command mean, by the family of its opcode. The answer depends on
the tables and on how many commands there are, and on no other command.
-/

namespace Sequencer

/-- The faults of a command's operands, and their meaning where they have one. -/
structure Resolution where
  faults : List OperandFault := []
  operands : Option (List Operand) := none
deriving DecidableEq, Repr

def Resolution.ofExcept : Except OperandFault (List Operand) → Resolution
  | .ok operands => { operands := some operands }
  | .error fault => { faults := [fault] }

namespace Operand

def closing? : Char → Option Char
  | '[' => some ']'
  | '(' => some ')'
  | '\x7b' => some '\x7d'
  | _ => none

/-- What stands within a pair of brackets that encloses the whole text. -/
def stripBrackets : Text → Option Text
  | [] => none
  | c :: rest =>
    match closing? c with
    | none => none
    | some close =>
      if rest.getLast? = some close ∧ 2 ≤ rest.length then some rest.dropLast else none

def evaluate (constants : Constants) (source : Text) : Except OperandFault Int :=
  (constants.evaluate source).mapError (.badExpression source)

/-- The expression of a source operand. Letters may lead it only if they are one of `bases`, and
then it stands in brackets. -/
def sourceExpression (bases : List String) (source : Text) : Except OperandFault Text :=
  match source.takeWhile Char.isAlpha with
  | [] => .ok source
  | base =>
    if bases.any (·.toList == base) then
      match stripBrackets (source.dropWhile Char.isAlpha) with
      | some inner => .ok inner
      | none => .error (.badIndex source)
    else .error (.badBase base source)

/-- A constant of at most `bits` bits. -/
def constantSource (constants : Constants) (bits : Nat) (bases : List String) (source : Text) :
    Except OperandFault UInt16 := do
  let value ← evaluate constants (← sourceExpression bases source)
  if 0 ≤ value ∧ value.toNat < Bits.capacity bits then return UInt16.ofNat value.toNat
  else throw (.outOfRange value bits)

def registerIndex (constants : Constants) : Text → Except OperandFault (Option Int)
  | [] => .ok none
  | rest => (evaluate constants ((stripBrackets rest).getD rest)).map some

/-- A general register needs its index; a counter has none, but may be written with index zero. -/
def registerDestination (constants : Constants) (source : Text) :
    Except OperandFault (RegisterClass × Option UInt8) :=
  let name := Register.resolveAlias source
  match RegisterClass.ofBase? (name.takeWhile Char.isAlpha) with
  | none => .error (.unknownRegister source)
  | some kind => do
    match kind, ← registerIndex constants (name.dropWhile Char.isAlpha) with
    | .general, none => throw (.missingIndex source)
    | .general, some index =>
      if 0 ≤ index ∧ index ≤ Register.maxIndex then return (kind, some (UInt8.ofNat index.toNat))
      else throw (.registerOutOfRange index)
    | _, none => return (kind, none)
    | _, some index =>
      if index = 0 then return (kind, none) else throw (.noSubregister kind index)

/-- The register that an opcode loads without naming it. -/
def impliedRegister? : Opcode → Option RegisterClass
  | .ldCc => some .counter
  | .ldNc => some .nestedCounter
  | _ => none

/-- Destination and source of a load are looked at both, whatever the other is. The source of a load
to an unknown destination is held to the width of a general register. -/
def resolveLoad (constants : Constants) (destination source : Text) : Resolution :=
  match registerDestination constants destination with
  | .ok (kind, index) =>
    .ofExcept do
      let value ← constantSource constants kind.sourceBits [] source
      return [.register kind index, .constant value]
  | .error fault =>
    match constantSource constants RegisterClass.general.sourceBits [] source with
    | .ok _ => { faults := [fault] }
    | .error second => { faults := [fault, second] }

def resolveBranch (symbols : Symbols) (count : Nat) (opcode : Opcode) (name : Text) :
    Except OperandFault (List Operand) :=
  match symbols.get? name with
  | none => .error (.unknownTarget name opcode)
  | some symbol =>
    if symbol.commandIndex < count then .ok [.address name] else .error (.strayTarget name)

end Operand

namespace Command

open Operand

def resolve (constants : Constants) (symbols : Symbols) (count : Nat) (command : Command) :
    Resolution :=
  let opcode := command.opcode
  let raw := command.rawOperands
  let immediate := fun source ↦ do
    let value ← constantSource constants opcode.operandBits opcode.sourceBases source
    return [Operand.constant value]
  match opcode.family with
  | .registerLoad =>
    match impliedRegister? opcode, raw with
    | some kind, [source] =>
      .ofExcept do
        let value ← constantSource constants kind.sourceBits [] source
        return [.register kind none, .constant value]
    | some _, _ => { faults := [.wrongCount opcode 1 raw.length] }
    | none, [destination, source] => resolveLoad constants destination source
    | none, _ => { faults := [.wrongCount opcode 2 raw.length] }
  | .branch =>
    match raw with
    | [name] => .ofExcept (resolveBranch symbols count opcode name)
    | _ => { faults := [.wrongCount opcode 1 raw.length] }
  | .singleImmediate =>
    match raw with
    | [source] => .ofExcept (immediate source)
    | _ => { faults := [.wrongCount opcode 1 raw.length] }
  | .optionalImmediate =>
    match raw with
    | [] => { operands := some [.constant 0] }
    | [source] => .ofExcept (immediate source)
    | _ => { faults := [.tooMany opcode raw.length] }
  | .zeroOperand =>
    match raw with
    | [] => { operands := some [] }
    | _ => { faults := [.noneAllowed opcode raw], operands := some [] }

end Command

end Sequencer
