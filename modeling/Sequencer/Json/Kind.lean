import Sequencer.Json.Number

/-!
# JSON values of a known kind
-/

namespace Sequencer.JsonScanner

def isNumberStart (c : Char) : Bool := c = '-' || c.isDigit

/-- The fault of a value that is not of the kind asked for. A simple value is read first, so it may
have a fault of its own. -/
def refuse : Text → JsonFault
  | [] => .cutShort
  | 'n' :: t => fault (keyword "ull".toList t)
  | 't' :: t => fault (keyword "rue".toList t)
  | 'f' :: t => fault (keyword "alse".toList t)
  | '"' :: t => fault (stringAfter none t)
  | c :: t =>
    if isNumberStart c then fault (number (c :: t))
    else if c = '[' || c = '\x7b' then .unsuitable
    else .malformed
where
  fault {α : Type} : Except JsonFault α → JsonFault
    | .error fault => fault
    | .ok _ => .unsuitable

/-- An integer below `bound`. -/
def natural (bound : Nat) (t : Text) : Except JsonFault (Nat × Text) := do
  let t := skipBlanks t
  if t.head?.any isNumberStart then
    match ← number t with
    | (some n, rest) => if n < bound then return (n, rest) else throw .unsuitable
    | (none, _) => throw .unsuitable
  else throw (refuse t)

def optionalNatural (bound : Nat) (t : Text) : Except JsonFault (Option Nat × Text) := do
  match skipBlanks t with
  | 'n' :: rest => return (none, ← keyword "ull".toList rest)
  | t =>
    let (n, rest) ← natural bound t
    return (some n, rest)

def boolean (t : Text) : Except JsonFault (Bool × Text) := do
  match skipBlanks t with
  | 't' :: rest => return (true, ← keyword "rue".toList rest)
  | 'f' :: rest => return (false, ← keyword "alse".toList rest)
  | t => throw (refuse t)

end Sequencer.JsonScanner
