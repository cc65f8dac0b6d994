import Sequencer.Image.Reader
import Sequencer.Verification

/-!
# Listings

A listing shows the words of an image from one address up to another, decoded.
-/

namespace Sequencer

structure ListedWord where
  address : Nat
  decoded : Decoded
deriving DecidableEq, Repr

namespace ListedWord

def word (listed : ListedWord) : Word := listed.decoded.raw

/-- One line of a listing, with the bits of the word if they are asked for. -/
def render (showBits : Bool) (listed : ListedWord) : Text :=
  let bits := if showBits then Numeral.binary 15 listed.word.toNat ++ "  ".toList else []
  Numeral.markedHex 4 listed.address ++ ": ".toList ++ bits ++ listed.decoded.render ++ ['\n']

end ListedWord

/-- A word of a listing that decodes to nothing. -/
structure ListingFault where
  address : Nat
  word : Word
deriving DecidableEq, Repr

def ListingFault.message (fault : ListingFault) : String :=
  let word := String.ofList (Numeral.markedHex 4 fault.word.toNat)
  let address := String.ofList (Numeral.markedHex 4 fault.address)
  s!"unrecognized machine code {word} at address {address}"

namespace Image

/-- The words from `start` up to `stop`, as far as the image goes. -/
def slice (image : Image) (start stop : Nat) : List Word := (image.take stop).drop start

def listing (image : Image) (start stop : Nat) : Except ListingFault (List ListedWord) :=
  let words := image.slice start stop
  match firstUndecodable? words with
  | some (word, index) => .error { address := start + index, word }
  | none =>
    .ok ((words.filterMap decode).zipIdx.map fun (decoded, index) ↦
      { address := start + index, decoded })

end Image

end Sequencer
