import Sequencer.Json.Kind
import Sequencer.Json.Skipping
import Sequencer.Settings

/-!
# Settings in JSON

Settings are an object with a member for each setting, in any order, or a list of values in their
fixed order. Settings that are not given keep their defaults. An object may have other members
too, which are skipped, but none of its settings twice.
-/

namespace Sequencer

inductive Setting where
  | branchAlignment
  | warningLimit
  | includeLimit
  | fillWord
  | quiet
deriving DecidableEq, Repr

namespace Setting

def all : List Setting := [branchAlignment, warningLimit, includeLimit, fillWord, quiet]

def name : Setting → String
  | branchAlignment => "branch_target_alignment"
  | warningLimit => "warning_exit_threshold"
  | includeLimit => "include_limit"
  | fillWord => "fill_word"
  | quiet => "quiet"

def ofName? (name : Text) : Option Setting := all.find? (·.name.toList = name)

open JsonScanner in
/-- Read the value of one setting. -/
def read (setting : Setting) (settings : Settings) (t : Text) :
    Except JsonFault (Settings × Text) := do
  match setting with
  | branchAlignment =>
    let (n, rest) ← natural UInt16.size t
    return ({ settings with branchAlignment := UInt16.ofNat n }, rest)
  | warningLimit =>
    let (limit, rest) ← optionalNatural UInt64.size t
    return ({ settings with warningLimit := limit }, rest)
  | includeLimit =>
    let (n, rest) ← natural UInt64.size t
    return ({ settings with includeLimit := n }, rest)
  | fillWord =>
    let (n, rest) ← natural UInt16.size t
    return ({ settings with fillWord := UInt16.ofNat n }, rest)
  | quiet =>
    let (b, rest) ← boolean t
    return ({ settings with quiet := b }, rest)

end Setting

namespace Settings

open JsonScanner

/-- The quote of the next name, or nothing at the closing brace. -/
def nextName (first : Bool) (t : Text) : Except JsonFault (Bool × Text) :=
  match skipBlanks t with
  | [] => .error .cutShort
  | '\x7d' :: rest => .ok (false, rest)
  | c :: rest =>
    if first then if c = '"' then .ok (true, rest) else .error .malformed
    else if c ≠ ',' then .error .malformed
    else match skipBlanks rest with
      | [] => .error .cutShort
      | '"' :: rest => .ok (true, rest)
      | _ => .error .malformed

/-- Members up to the closing brace. Each takes at least its quotes, so the length of the text is
fuel enough. -/
def readMembers : (fuel : Nat) → (first : Bool) → (seen : List Setting) → Settings → Text →
    Except JsonFault (Settings × Text)
  | 0, _, _, _, _ => .error .malformed
  | fuel + 1, first, seen, settings, t => do
    let (more, rest) ← nextName first t
    if !more then return (settings, rest)
    let (name, rest) ← stringAfter none rest
    match Setting.ofName? name with
    | none => readMembers fuel false seen settings (← skipValue (← skipColon rest))
    | some setting =>
      if setting ∈ seen then throw .unsuitable
      let (settings, rest) ← setting.read settings (← skipColon rest)
      readMembers fuel false (setting :: seen) settings rest

/-- Values up to the closing bracket, one for each setting at most. -/
def readValues : (first : Bool) → List Setting → Settings → Text →
    Except JsonFault (Settings × Text)
  | _, [], settings, t =>
    match skipBlanks t with
    | [] => .error .cutShort
    | ']' :: rest => .ok (settings, rest)
    | _ => .error .malformed
  | first, setting :: others, settings, t =>
    match skipBlanks t with
    | [] => .error .cutShort
    | ']' :: rest => .ok (settings, rest)
    | c :: rest => do
      if first then
        let (settings, rest) ← setting.read settings (c :: rest)
        readValues false others settings rest
      else if c ≠ ',' then throw .malformed
      else if (skipBlanks rest).head? = some ']' then throw .malformed
      else
        let (settings, rest) ← setting.read settings rest
        readValues false others settings rest

/-- Settings as a JSON text; only blanks may follow them. -/
def ofJson (t : Text) : Except JsonFault Settings := do
  let (settings, rest) ← match skipBlanks t with
    | '[' :: rest => readValues true Setting.all {} rest
    | '\x7b' :: rest => readMembers (t.length + 1) true [] {} rest
    | t => .error (refuse t)
  if skipBlanks rest = [] then return settings else throw .malformed

end Settings

end Sequencer
