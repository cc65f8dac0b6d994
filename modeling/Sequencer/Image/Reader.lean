import Sequencer.Machine.Format
import Sequencer.Text.Blank

/-!
# Reading images

A text image has a binary number in each line; what follows two slashes is a comment. A binary image
has two bytes for each word.
-/

namespace Sequencer

abbrev Image := List Word

inductive ImageFault where
  | notBinary (line : Nat) (body : Text) (fault : NumeralFault)
  | tooWide (line : Nat) (body : Text)
  | badSkip
  | oddLength (bytes : Nat)
deriving DecidableEq, Repr

namespace ImageFault

def message : ImageFault → String
  | notBinary line body _ => s!"line {line}: not a binary word: {String.ofList body}"
  | tooWide line body => s!"line {line}: {String.ofList body} is wider than 15 bits"
  | badSkip => "--skip exceeds file size"
  | oddLength bytes => s!"{bytes} bytes after skip is not a whole number of words"

def cause? : ImageFault → Option String
  | notBinary _ _ fault => some fault.message
  | _ => none

end ImageFault

namespace Image

/-- What a line holds before its comment. -/
def lineBody (line : Text) : Text :=
  match Text.splitFirstPair ('/', '/') line with
  | some (before, _) => Text.trim before
  | none => Text.trim line

/-- The word of one line, if it has any. -/
def readLine (number : Nat) (line : Text) : Except ImageFault (Option Word) :=
  match lineBody line with
  | [] => .ok none
  | body =>
    match Numeral.read 2 UInt16.size body with
    | .error fault => .error (.notBinary number body fault)
    | .ok word =>
      if word < Bits.capacity wordBits then .ok (some (UInt16.ofNat word))
      else .error (.tooWide number body)

def ofText (text : Text) : Except ImageFault Image := do
  let words ← (Text.lines text).zipIdx.mapM fun (line, index) ↦ readLine (index + 1) line
  return words.filterMap id

def pairs : List UInt8 → Image
  | high :: low :: rest => (high.toUInt16 <<< 8 ||| low.toUInt16) :: pairs rest
  | _ => []

/-- The words of a binary image after some bytes that are skipped. -/
def ofBytes (skip : Nat) (bytes : List UInt8) : Except ImageFault Image :=
  if bytes.length < skip then .error .badSkip
  else if (bytes.length - skip) % 2 ≠ 0 then .error (.oddLength (bytes.length - skip))
  else .ok (pairs (bytes.drop skip))

end Image

end Sequencer
