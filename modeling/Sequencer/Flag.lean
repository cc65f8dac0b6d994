import Sequencer.Text.Basic

/-!
# Flags

An instruction may carry any of four flags: acquire, synchronise on strobe, transmit as control
character, and one whose meaning is left to the machine. A flag is written as a single letter.
-/

namespace Sequencer

inductive Flag where
  | acquire
  | reserved
  | control
  | synchronise
deriving DecidableEq, Repr

def Flag.ofLetter? : Char → Option Flag
  | 'A' => some acquire
  | 'B' => some reserved
  | 'K' => some control
  | 'S' => some synchronise
  | _ => none

structure FlagSet where
  acquire : Bool := false
  reserved : Bool := false
  control : Bool := false
  synchronise : Bool := false
deriving DecidableEq, Repr

namespace FlagSet

def empty : FlagSet := {}

def isEmpty (flags : FlagSet) : Bool := flags = empty

def contains (flags : FlagSet) : Flag → Bool
  | .acquire => flags.acquire
  | .reserved => flags.reserved
  | .control => flags.control
  | .synchronise => flags.synchronise

/-- The flags of which a property holds. -/
def ofPredicate (holds : Flag → Bool) : FlagSet where
  acquire := holds .acquire
  reserved := holds .reserved
  control := holds .control
  synchronise := holds .synchronise

def single (flag : Flag) : FlagSet := ofPredicate (· = flag)

def union (a b : FlagSet) : FlagSet := ofPredicate fun flag ↦ a.contains flag || b.contains flag

def inter (a b : FlagSet) : FlagSet := ofPredicate fun flag ↦ a.contains flag && b.contains flag

def diff (a b : FlagSet) : FlagSet := ofPredicate fun flag ↦ a.contains flag && !b.contains flag

def hasLetter (flags : FlagSet) (letter : Char) : Bool :=
  (Flag.ofLetter? letter).any flags.contains

/-- The flags whose letters stand in a text; other characters count for nothing. -/
def ofLetters (layout : Text) : FlagSet :=
  ((layout.filterMap Flag.ofLetter?).map single).foldl union empty

/-- A flag token is a flag letter on its own. -/
def ofToken? : Text → Option FlagSet
  | [letter] => (Flag.ofLetter? letter).map single
  | _ => none

/-- Letters are listed in the order of the widest flag field. -/
def letters (flags : FlagSet) : Text := "BSAK".toList.filter flags.hasLetter

/-- The flags as they are named in a dump of a program. -/
def names (flags : FlagSet) : Text :=
  Text.join " | ".toList (("ABKS".toList.filter flags.hasLetter).map fun letter ↦ [letter])

def bits (flags : FlagSet) : UInt16 :=
  (if flags.acquire then 1 else 0) + (if flags.reserved then 2 else 0) +
    (if flags.control then 4 else 0) + (if flags.synchronise then 8 else 0)

end FlagSet

end Sequencer
