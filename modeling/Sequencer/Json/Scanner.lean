import Sequencer.Text.Numeral

/-!
# Reading JSON

A text is read from left to right, and the first fault met decides. Each reader takes the text
that is left and gives back what follows the part it has read.
-/

namespace Sequencer

inductive JsonFault where
  /-- The text ends too early. -/
  | cutShort
  /-- The text is not JSON. -/
  | malformed
  /-- The value is not of the kind that is asked for. -/
  | unsuitable
deriving DecidableEq, Repr

def JsonFault.message : JsonFault → String
  | cutShort => "the text ends too early"
  | malformed => "the text is not JSON"
  | unsuitable => "a value is not of the kind that is asked for"

namespace JsonScanner

def isBlank (c : Char) : Bool := c = ' ' || c = '\n' || c = '\t' || c = '\r'

def skipBlanks (t : Text) : Text := t.dropWhile isBlank

/-- The rest of a word that is known by its first letter. -/
def keyword : (expected : Text) → Text → Except JsonFault Text
  | [], rest => .ok rest
  | _ :: _, [] => .error .cutShort
  | e :: expected, c :: rest => if c = e then keyword expected rest else .error .malformed

def escape? : Char → Option Char
  | '"' => some '"'
  | '\\' => some '\\'
  | '/' => some '/'
  | 'b' => some '\x08'
  | 'f' => some '\x0c'
  | 'n' => some '\n'
  | 'r' => some '\r'
  | 't' => some '\t'
  | _ => none

def codeUnit? (digits : List Char) : Option Nat :=
  digits.foldlM (fun n c ↦ (16 * n + ·) <$> Numeral.digit? 16 c) 0

def isHighSurrogate (unit : Nat) : Bool := 0xD800 ≤ unit && unit ≤ 0xDBFF

def isLowSurrogate (unit : Nat) : Bool := 0xDC00 ≤ unit && unit ≤ 0xDFFF

/-- What an escaped code unit stands for after `high`: a character, or one half of it. -/
def combine (high : Option Nat) (unit : Nat) : Except JsonFault (Option Char) :=
  match high with
  | some high =>
    if isLowSurrogate unit then
      .ok (some (Char.ofNat (0x10000 + (high - 0xD800) * 0x400 + (unit - 0xDC00))))
    else .error .malformed
  | none =>
    if isLowSurrogate unit then .error .malformed
    else if isHighSurrogate unit then .ok none
    else .ok (some (Char.ofNat unit))

def cons (c : Char) : Text × Text → Text × Text := fun (value, rest) ↦ (c :: value, rest)

/-- The value of a string after its opening quote. After the first half of a surrogate pair the
second has to follow at once. -/
def stringAfter : (high : Option Nat) → Text → Except JsonFault (Text × Text)
  | _, [] | _, ['\\'] => .error .cutShort
  | high, '\\' :: 'u' :: a :: b :: c :: d :: rest =>
    match codeUnit? [a, b, c, d] with
    | none => .error .malformed
    | some unit =>
      match combine high unit with
      | .error fault => .error fault
      | .ok none => stringAfter (some unit) rest
      | .ok (some value) => (stringAfter none rest).map (cons value)
  | _, '\\' :: 'u' :: digits =>
    .error (if Text.byteLength digits < 4 then .cutShort else .malformed)
  | some _, _ :: _ => .error .malformed
  | none, '\\' :: c :: rest =>
    match escape? c with
    | some value => (stringAfter none rest).map (cons value)
    | none => .error .malformed
  | none, '"' :: rest => .ok ([], rest)
  | none, c :: rest =>
    if c.toNat < 0x20 then .error .malformed else (stringAfter none rest).map (cons c)

/-- Skip a string after its opening quote, whatever its code units make. -/
def skipString : Text → Except JsonFault Text
  | [] | ['\\'] => .error .cutShort
  | '\\' :: 'u' :: a :: b :: c :: d :: rest =>
    if (codeUnit? [a, b, c, d]).isSome then skipString rest else .error .malformed
  | '\\' :: 'u' :: digits =>
    .error (if Text.byteLength digits < 4 then .cutShort else .malformed)
  | '\\' :: c :: rest => if (escape? c).isSome then skipString rest else .error .malformed
  | '"' :: rest => .ok rest
  | c :: rest => if c.toNat < 0x20 then .error .malformed else skipString rest

end JsonScanner

end Sequencer
