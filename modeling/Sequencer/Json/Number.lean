import Sequencer.Bits
import Sequencer.Json.Scanner

/-!
# Numbers in JSON

A number is its digits, a fraction and an exponent. Digits are collected as long as they fit in 64
bits; those of the integer part that do not fit count only by their place. A number has to lie in
the range of a floating point number of 64 bits, though only integers are ever asked for.
-/

namespace Sequencer.JsonScanner

structure Decimal where
  significand : Nat := 0
  exponent : Int := 0
  /-- Whether a digit has been left out. -/
  full : Bool := false

namespace Decimal

def addInteger (n : Decimal) (digit : Nat) : Decimal :=
  if n.full || UInt64.size ≤ 10 * n.significand + digit then
    { n with exponent := n.exponent + 1, full := true }
  else { n with significand := 10 * n.significand + digit }

/-- Of a fraction, the first digit that does not fit and all after it count for nothing. -/
def addFraction (n : Decimal) (digit : Nat) : Decimal :=
  if n.full || UInt64.size ≤ 10 * n.significand + digit then { n with full := true }
  else { n with significand := 10 * n.significand + digit, exponent := n.exponent - 1 }

/-- The nearest number with 53 significant bits, the even one of two. -/
def rounded (n : Nat) : Nat :=
  if n < Bits.capacity 53 then n
  else
    let unit := Bits.capacity (Nat.log2 n - 52)
    let below := n / unit
    let up := unit < 2 * (n % unit) || (unit = 2 * (n % unit) && below % 2 = 1)
    (if up then below + 1 else below) * unit

/-- Powers of ten that are finite as floating point numbers end here. -/
def maxExponent : Int := 308

/-- Whether a floating point number of 64 bits can hold the value. -/
def inRange (n : Decimal) : Bool :=
  n.significand = 0 || n.exponent < 0 ||
    (n.exponent ≤ maxExponent &&
      rounded n.significand * rounded (Nat.pow 10 n.exponent.toNat) <
        Bits.capacity 1024 - Bits.capacity 970)

end Decimal

def digitValue (c : Char) : Nat := c.toNat - '0'.toNat

def startsWithDigit (t : Text) : Bool := t.head?.any Char.isDigit

/-- At least one digit has to come next. -/
def needDigit (t : Text) : Except JsonFault Unit :=
  if t = [] then .error .cutShort
  else if startsWithDigit t then .ok ()
  else .error .malformed

def integerPart (t : Text) : Except JsonFault (Decimal × Text) := do
  needDigit t
  let digits := t.takeWhile Char.isDigit
  if 1 < digits.length ∧ digits.head? = some '0' then throw .malformed
  return (digits.foldl (fun n c ↦ n.addInteger (digitValue c)) {}, t.dropWhile Char.isDigit)

/-- The part after the point, if there is one. -/
def fraction (n : Decimal) : Text → Except JsonFault (Option Decimal × Text)
  | '.' :: t => do
    needDigit t
    let digits := t.takeWhile Char.isDigit
    let n := digits.foldl (fun n c ↦ n.addFraction (digitValue c)) { n with full := false }
    return (some n, t.dropWhile Char.isDigit)
  | t => .ok (none, t)

def signed : Text → Bool × Text
  | '-' :: t => (true, t)
  | '+' :: t => (false, t)
  | t => (false, t)

/-- The power of ten, if one is given. -/
def exponent (n : Decimal) : Text → Except JsonFault (Option Decimal × Text)
  | mark :: t => do
    if mark ≠ 'e' ∧ mark ≠ 'E' then return (none, mark :: t)
    let (negative, t) := signed t
    needDigit t
    let power : Int := (t.takeWhile Char.isDigit).foldl (fun n c ↦ 10 * n + digitValue c) 0
    let power := if negative then -power else power
    return (some { n with exponent := n.exponent + power }, t.dropWhile Char.isDigit)
  | [] => .ok (none, [])

/-- A number without its sign; its value if it is an integer of 64 bits written with digits only. -/
def unsignedNumber (t : Text) : Except JsonFault (Option Nat × Text) := do
  let (whole, rest) ← integerPart t
  let (withFraction, rest) ← fraction whole rest
  let (withPower, rest) ← exponent (withFraction.getD whole) rest
  if !((withPower <|> withFraction).getD whole).inRange then throw .malformed
  let plain := withFraction.isNone && withPower.isNone && !whole.full
  return (if plain then some whole.significand else none, rest)

/-- A number; its value if it is an integer of 64 bits written with digits only. -/
def number : Text → Except JsonFault (Option Nat × Text)
  | '-' :: t => do return (none, (← unsignedNumber t).2)
  | t => unsignedNumber t

end Sequencer.JsonScanner
