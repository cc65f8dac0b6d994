import Sequencer.Text.Blank

/-!
# Source lines

Lines are numbered from one within their file. A line's code is what stands before the first number
sign, without blanks at its ends.
-/

namespace Sequencer

structure SourceLine where
  number : Nat
  text : Text
deriving DecidableEq, Repr

def SourceLine.ofText (text : Text) : List SourceLine :=
  (Text.lines text).zipIdx.map fun (line, index) ↦ ⟨index + 1, line⟩

namespace Source

def code (line : Text) : Text := Text.trim (line.takeWhile (· ≠ '#'))

/-- Blanks after one of these characters are dropped. -/
def joinAfter : List Char := ":*+,-./[(".toList ++ ['\x7b']

/-- Blanks before one of these characters are dropped. -/
def joinBefore : List Char := ":*+,-./])".toList ++ ['\x7d']

def keepsGap (before after : Char) : Bool :=
  !joinAfter.contains before && !joinBefore.contains after

/-- Normal form of what follows `last`, where `gap` says that blanks were met since. -/
def normalizeFrom (last : Option Char) (gap : Bool) : Text → Text
  | [] => []
  | c :: rest =>
    if Text.isBlank c then normalizeFrom last true rest
    else if gap && last.any (keepsGap · c) then ' ' :: c :: normalizeFrom (some c) false rest
    else c :: normalizeFrom (some c) false rest

/-- Every run of blanks becomes one space, and none is left at the ends or beside an operator, so
that an expression is one token however it is spaced. -/
def normalize (line : Text) : Text := normalizeFrom none false line

def isSeparator (c : Char) : Bool := c == ',' || Text.isBlank c

/-- What stands between commas and blanks. -/
def tokens (line : Text) : List Text := Text.runs isSeparator (fun _ _ ↦ true) line

end Source

end Sequencer
