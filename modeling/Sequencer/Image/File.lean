import Sequencer.Files.Basic
import Sequencer.Image.Reader

/-!
# Image files

The extension of a file tells whether it holds a text image or a binary one.
-/

namespace Sequencer

inductive ImageFileFault where
  | unreadable (path : Text) (fault : FileFault)
  | image (fault : ImageFault)
deriving DecidableEq, Repr

namespace ImageFileFault

def message : ImageFileFault → String
  | unreadable path _ => s!"reading {String.ofList path}"
  | image fault => fault.message

def cause? : ImageFileFault → Option String
  | unreadable _ fault => some fault.message
  | image fault => fault.cause?

end ImageFileFault

namespace Image

def textExtension : Text := "mco".toList

/-- Load an image. Only bytes of binary images are skipped. -/
def load (read : Text → Except FileFault Bytes) (skip : Nat) (path : Text) :
    Except ImageFileFault Image := do
  if Path.extension? path = some textExtension then
    let text ← (do (← read path).toText).mapError (.unreadable path)
    (ofText text).mapError .image
  else
    let bytes ← (read path).mapError (.unreadable path)
    (ofBytes skip bytes).mapError .image

end Image

/-- An address as it is written on a command line, decimal or hexadecimal. -/
def Address.read (text : Text) : Except NumeralFault Nat :=
  match Text.trim text with
  | '0' :: 'x' :: digits | '0' :: 'X' :: digits => Numeral.read 16 UInt64.size digits
  | digits => Numeral.read 10 UInt64.size digits

end Sequencer
