import Sequencer.Expression.Token

/-!
# Values of expressions

    sum     := product (("+" | "-") product)*
    product := signed (("*" | "/") signed)*
    signed  := ("-" | "+") signed | atom
    atom    := number | "$" name | "(" sum ")"

Tokens are taken from left to right, and an operator is applied as soon as its right operand is
complete. So the first fault in reading order is the one reported, be it of form or of value. What
the values are is left to an arithmetic. Expressions are evaluated to integers of 64 bits with a
sign; a result outside is a fault and never wraps.
-/

namespace Sequencer.Expression

def minValue : Int := -0x8000000000000000

def maxValue : Int := 0x7FFFFFFFFFFFFFFF

def checked (value : Int) : Except ExpressionFault Int :=
  if minValue ≤ value ∧ value ≤ maxValue then .ok value else .error .overflow

inductive SumOperator where
  | plus
  | minus
deriving DecidableEq, Repr

inductive ProductOperator where
  | times
  | divide
deriving DecidableEq, Repr

def SumOperator.apply (a b : Int) : SumOperator → Except ExpressionFault Int
  | plus => checked (a + b)
  | minus => checked (a - b)

/-- Division goes toward zero. -/
def ProductOperator.apply (a b : Int) : ProductOperator → Except ExpressionFault Int
  | times => checked (a * b)
  | divide => if b = 0 then .error .divideByZero else checked (a.tdiv b)

/-- How numbers, names and operators act on values of some kind. -/
structure Arithmetic (α : Type) where
  number : Nat → Except ExpressionFault α
  name : Text → Except ExpressionFault α
  negate : α → Except ExpressionFault α
  sum : SumOperator → α → α → Except ExpressionFault α
  product : ProductOperator → α → α → Except ExpressionFault α

/-- Integers of 64 bits, with the names that `lookup` knows. -/
def integers (lookup : Text → Option Int) : Arithmetic Int where
  number value := .ok value
  name name :=
    match lookup name with
    | some value => .ok value
    | none => .error (.unknownConstant name)
  negate value := checked (-value)
  sum operator a b := operator.apply a b
  product operator a b := operator.apply a b

/-- What waits for the operand that is read next, within one pair of parentheses. -/
structure Pending (α : Type) where
  sum : Option (α × SumOperator) := none
  product : Option (α × ProductOperator) := none
  negations : Nat := 0
deriving DecidableEq, Repr

inductive State (α : Type) where
  | operand (pending : Pending α) (outer : List (Pending α))
  | operator (sum : Option (α × SumOperator)) (product : α) (outer : List (Pending α))
deriving DecidableEq, Repr

variable {α : Type} (arithmetic : Arithmetic α)

def negate : Nat → α → Except ExpressionFault α
  | 0, value => .ok value
  | n + 1, value => do negate n (← arithmetic.negate value)

/-- An operand with the product that waits for it. -/
def scaled (product : Option (α × ProductOperator)) (value : α) : Except ExpressionFault α :=
  match product with
  | none => .ok value
  | some (left, operator) => arithmetic.product operator left value

/-- A product with the sum that waits for it. -/
def total (sum : Option (α × SumOperator)) (product : α) : Except ExpressionFault α :=
  match sum with
  | none => .ok product
  | some (left, operator) => arithmetic.sum operator left product

/-- Signs apply before the product does. -/
def Pending.accept (pending : Pending α) (outer : List (Pending α)) (value : α) :
    Except ExpressionFault (State α) := do
  let value ← negate arithmetic pending.negations value
  let product ← scaled arithmetic pending.product value
  return .operator pending.sum product outer

def State.step : State α → Token → Except ExpressionFault (State α)
  | .operand pending outer, token =>
    match token with
    | .number value => do pending.accept arithmetic outer (← arithmetic.number value)
    | .name name => do pending.accept arithmetic outer (← arithmetic.name name)
    | .minus => .ok (.operand { pending with negations := pending.negations + 1 } outer)
    | .plus => .ok (.operand pending outer)
    | .opening => .ok (.operand {} (pending :: outer))
    | _ => .error (.unexpected token.text)
  | .operator sum product outer, token =>
    match token with
    | .times => .ok (.operand { sum, product := some (product, .times) } outer)
    | .divide => .ok (.operand { sum, product := some (product, .divide) } outer)
    | .plus => do return .operand { sum := some (← total arithmetic sum product, .plus) } outer
    | .minus => do return .operand { sum := some (← total arithmetic sum product, .minus) } outer
    | .closing => do
      let value ← total arithmetic sum product
      match outer with
      | [] => .error (.unexpected token.text)
      | pending :: outer => pending.accept arithmetic outer value
    | _ => do
      let _ ← total arithmetic sum product
      .error (.unexpected token.text)

def State.finish : State α → Except ExpressionFault α
  | .operand _ _ => .error .unexpectedEnd
  | .operator sum product outer => do
    let value ← total arithmetic sum product
    match outer with
    | [] => .ok value
    | _ :: _ => .error .unexpectedEnd

def value (tokens : List Token) : Except ExpressionFault α := do
  (← tokens.foldlM (State.step arithmetic) (.operand {} [])).finish arithmetic

def evaluate (lookup : Text → Option Int) (source : Text) : Except ExpressionFault Int := do
  match ← tokens source with
  | [] => .error .empty
  | tokens => value (integers lookup) tokens

end Sequencer.Expression
