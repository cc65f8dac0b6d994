import Sequencer.Json.Number

/-!
# Skipping JSON values

A value that nothing asks for only has to be well formed.
-/

namespace Sequencer.JsonScanner

/-- Skip a digit that has to come and all that follow it. -/
def skipDigits (t : Text) : Except JsonFault Text :=
  if startsWithDigit t then .ok (t.dropWhile Char.isDigit) else .error .malformed

def skipExponent : Text → Except JsonFault Text
  | 'e' :: t | 'E' :: t => skipDigits (signed t).2
  | t => .ok t

/-- Skip a number without its sign. Nothing asks for its value, so its size does not matter. -/
def skipNumber (t : Text) : Except JsonFault Text := do
  let rest ← skipDigits t
  if t.head? = some '0' ∧ startsWithDigit (t.drop 1) then throw .malformed
  match rest with
  | '.' :: rest => skipExponent (← skipDigits rest)
  | rest => skipExponent rest

/-- Skip a value that is not a list or an object. -/
def skipScalar : Text → Except JsonFault Text
  | [] => .error .cutShort
  | 'n' :: t => keyword "ull".toList t
  | 't' :: t => keyword "rue".toList t
  | 'f' :: t => keyword "alse".toList t
  | '"' :: t => skipString t
  | '-' :: t => skipNumber t
  | t => skipNumber t

def skipColon (t : Text) : Except JsonFault Text :=
  match skipBlanks t with
  | [] => .error .cutShort
  | ':' :: rest => .ok rest
  | _ => .error .malformed

/-- Skip the name of a member and its colon. -/
def skipName (t : Text) : Except JsonFault Text :=
  match skipBlanks t with
  | [] => .error .cutShort
  | '"' :: t => do skipColon (← skipString t)
  | _ => .error .malformed

inductive Bracket where
  | list
  | object
deriving DecidableEq

def Bracket.closing : Bracket → Char
  | list => ']'
  | object => '\x7d'

/-- What may come next inside brackets. -/
inductive Expected where
  | value
  | firstMember
  | nextMember

/-- Skip to the end of a value inside `brackets`, innermost first. Each step but the first of a list
takes a character, so twice the length of the text is fuel enough. -/
def skipFrom : (fuel : Nat) → Expected → List Bracket → Text → Except JsonFault Text
  | 0, _, _, _ => .error .malformed
  | _ + 1, .firstMember, [], t | _ + 1, .nextMember, [], t => .ok t
  | fuel + 1, .value, brackets, t =>
    match skipBlanks t with
    | '[' :: t => skipFrom fuel .firstMember (.list :: brackets) t
    | '\x7b' :: t => skipFrom fuel .firstMember (.object :: brackets) t
    | t => do skipFrom fuel .nextMember brackets (← skipScalar t)
  | fuel + 1, .firstMember, bracket :: brackets, t =>
    match skipBlanks t with
    | [] => .error .cutShort
    | c :: t =>
      if c = bracket.closing then skipFrom fuel .nextMember brackets t
      else match bracket with
        | .list => skipFrom fuel .value (bracket :: brackets) (c :: t)
        | .object => do skipFrom fuel .value (bracket :: brackets) (← skipName (c :: t))
  | fuel + 1, .nextMember, bracket :: brackets, t =>
    match skipBlanks t with
    | [] => .error .cutShort
    | c :: t =>
      if c = bracket.closing then skipFrom fuel .nextMember brackets t
      else if c ≠ ',' then .error .malformed
      else match bracket with
        | .list => skipFrom fuel .value (bracket :: brackets) t
        | .object => do skipFrom fuel .value (bracket :: brackets) (← skipName t)

def skipValue (t : Text) : Except JsonFault Text := skipFrom (2 * t.length + 2) .value [] t

end Sequencer.JsonScanner
