import Sequencer.Text.Basic

/-!
# Numerals

Numbers below a bound are read digit by digit, and the first digit that is none or that leads past
the bound decides the fault. Numbers are written in lower case, without leading zeros unless a
width asks for them.
-/

namespace Sequencer

inductive NumeralFault where
  | empty
  | invalidDigit
  | tooLarge
deriving DecidableEq, Repr

def NumeralFault.message : NumeralFault → String
  | empty => "cannot parse integer from empty string"
  | invalidDigit => "invalid digit found in string"
  | tooLarge => "number too large to fit in target type"

namespace Numeral

def digit? (radix : Nat) (c : Char) : Option Nat :=
  let value :=
    if c.isDigit then c.toNat - '0'.toNat
    else if c.isLower then c.toNat - 'a'.toNat + 10
    else if c.isUpper then c.toNat - 'A'.toNat + 10
    else radix
  if value < radix then some value else none

def readDigits (radix bound : Nat) : Nat → Text → Except NumeralFault Nat
  | value, [] => .ok value
  | value, c :: rest =>
    match digit? radix c with
    | none => .error .invalidDigit
    | some d =>
      if radix * value + d < bound then readDigits radix bound (radix * value + d) rest
      else .error .tooLarge

/-- A number below `bound`; one plus sign may lead. -/
def read (radix bound : Nat) : Text → Except NumeralFault Nat
  | [] => .error .empty
  | ['+'] => .error .invalidDigit
  | '+' :: digits => readDigits radix bound 0 digits
  | digits => readDigits radix bound 0 digits

def padded (width : Nat) (digits : Text) : Text :=
  List.replicate (width - digits.length) '0' ++ digits

def decimal (n : Nat) : Text := Nat.toDigits 10 n

def binary (width n : Nat) : Text := padded width (Nat.toDigits 2 n)

def hex (width n : Nat) : Text := padded width (Nat.toDigits 16 n)

/-- Hexadecimal with its mark, in at least `width` digits. -/
def markedHex (width n : Nat) : Text := '0' :: 'x' :: hex width n

def markedBinary (width n : Nat) : Text := '0' :: 'b' :: binary width n

end Numeral

end Sequencer
