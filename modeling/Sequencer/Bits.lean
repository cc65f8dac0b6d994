/-!
# Bits

Numbers as bits, the highest bit first.
-/

namespace Sequencer.Bits

/-- How many numbers can be written with a given number of bits. -/
def capacity (width : Nat) : Nat := Nat.pow 2 width

/-- The number that bits stand for. -/
def toNat (bits : List Bool) : Nat := bits.foldl (fun n bit ↦ 2 * n + bit.toNat) 0

/-- The lowest `width` bits of a number. -/
def ofNat : (width n : Nat) → List Bool
  | 0, _ => []
  | width + 1, n => n.testBit width :: ofNat width n

end Sequencer.Bits
