import Sequencer.Text.Blank
import Sequencer.Text.Numeral

/-!
# Tokens of an expression

A text is first cut into lexemes: blanks separate, word characters stay together, and a dollar sign
stays with the word that follows it. Each lexeme is then read on its own, the leftmost bad one being
the fault.
-/

namespace Sequencer

inductive ExpressionFault where
  | empty
  | unexpected (text : Text)
  | unexpectedEnd
  | badNumber (text : Text)
  | unknownConstant (name : Text)
  | divideByZero
  | overflow
deriving DecidableEq, Repr

def ExpressionFault.message : ExpressionFault → String
  | empty => "empty expression"
  | unexpected text => s!"unexpected '{String.ofList text}'"
  | unexpectedEnd => "unexpected end of expression"
  | badNumber text => s!"invalid number '{String.ofList text}'"
  | unknownConstant name => s!"unknown constant ${String.ofList name}"
  | divideByZero => "division by zero"
  | overflow => "arithmetic overflow"

namespace Expression

inductive Token where
  | number (value : Nat)
  | name (text : Text)
  | plus
  | minus
  | times
  | divide
  | opening
  | closing
deriving DecidableEq, Repr

def Token.text : Token → Text
  | number value => Numeral.decimal value
  | name text => '$' :: text
  | plus => ['+']
  | minus => ['-']
  | times => ['*']
  | divide => ['/']
  | opening => ['(']
  | closing => [')']

def lexemes : Text → List Text :=
  Text.runs Text.isBlank fun c d ↦ (Text.isWord c || c == '$') && Text.isWord d

/-- Numbers stay below this bound, so that they are values of 64 bits with a sign. -/
def numberBound : Nat := 0x8000000000000000

/-- A number is decimal unless it is marked as hexadecimal or binary. -/
def readNumber (text : Text) : Except ExpressionFault Nat :=
  let read := match Text.lower text with
    | '0' :: 'x' :: digits => Numeral.read 16 numberBound digits
    | '0' :: 'b' :: digits => Numeral.read 2 numberBound digits
    | digits => Numeral.read 10 numberBound digits
  read.mapError fun _ ↦ .badNumber text

def Token.ofLexeme : Text → Except ExpressionFault Token
  | ['+'] => .ok .plus
  | ['-'] => .ok .minus
  | ['*'] => .ok .times
  | ['/'] => .ok .divide
  | ['('] => .ok .opening
  | [')'] => .ok .closing
  | '$' :: c :: word => .ok (.name (c :: word))
  | c :: word =>
    if c.isDigit then (readNumber (c :: word)).map .number else .error (.unexpected [c])
  | [] => .error .empty

def tokens (source : Text) : Except ExpressionFault (List Token) :=
  (lexemes source).mapM Token.ofLexeme

end Expression

end Sequencer
