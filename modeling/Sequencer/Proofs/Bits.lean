import Mathlib
import Sequencer.Machine.Format

/-!
# Numbers and their bits

Reading bits and writing bits undo each other as long as the number fits. Packing fields by
arithmetic is the same as laying their bits side by side, so a word can be taken apart again by
cutting its list of bits.
-/

namespace Sequencer

namespace Bits

theorem capacity_eq (width : ℕ) : capacity width = 2 ^ width := rfl

theorem capacity_pos (width : ℕ) : 0 < capacity width := by
  rw [capacity_eq]
  positivity

theorem capacity_add (a b : ℕ) : capacity (a + b) = capacity a * capacity b := by
  simp only [capacity_eq, pow_add]

@[simp]
theorem toNat_nil : toNat [] = 0 := rfl

theorem foldl_eq_toNat (bits : List Bool) (start : ℕ) :
    bits.foldl (fun n bit ↦ 2 * n + bit.toNat) start =
      start * capacity bits.length + toNat bits := by
  induction bits generalizing start with
  | nil => simp [capacity_eq]
  | cons bit rest ih =>
    rw [toNat, List.foldl_cons, List.foldl_cons, ih, ih (2 * 0 + bit.toNat)]
    simp only [List.length_cons, capacity_eq, pow_succ]
    ring

theorem toNat_append (front back : List Bool) :
    toNat (front ++ back) = toNat front * capacity back.length + toNat back := by
  rw [toNat, List.foldl_append, foldl_eq_toNat back]
  rfl

theorem toNat_cons (bit : Bool) (rest : List Bool) :
    toNat (bit :: rest) = bit.toNat * capacity rest.length + toNat rest := by
  have h := toNat_append [bit] rest
  simpa [toNat] using h

theorem toNat_lt (bits : List Bool) : toNat bits < capacity bits.length := by
  induction bits with
  | nil => simp [capacity_eq]
  | cons bit rest ih =>
    rw [toNat_cons, List.length_cons, Nat.add_comm, Nat.add_comm rest.length, capacity_add]
    have hbit : bit.toNat ≤ 1 := Bool.toNat_le bit
    have hscaled : bit.toNat * capacity rest.length ≤ 1 * capacity rest.length :=
      Nat.mul_le_mul_right _ hbit
    have hone : capacity 1 = 2 := rfl
    rw [hone]
    omega

@[simp]
theorem length_ofNat (width n : ℕ) : (ofNat width n).length = width := by
  induction width with
  | zero => rfl
  | succ width ih => rw [ofNat, List.length_cons, ih]

/-- Writing keeps the number up to the bits there is no room for. -/
theorem toNat_ofNat_mod (width n : ℕ) : toNat (ofNat width n) = n % capacity width := by
  induction width with
  | zero => simp [ofNat, capacity_eq, Nat.mod_one]
  | succ width ih =>
    rw [ofNat, toNat_cons, ih, length_ofNat, Nat.toNat_testBit]
    simp only [capacity_eq]
    rw [Nat.mod_pow_succ, Nat.add_comm, Nat.mul_comm]

theorem toNat_ofNat {width n : ℕ} (h : n < capacity width) : toNat (ofNat width n) = n := by
  rw [toNat_ofNat_mod, Nat.mod_eq_of_lt h]

theorem toNat_injective {front back : List Bool} (hlength : front.length = back.length)
    (h : toNat front = toNat back) : front = back := by
  induction front generalizing back with
  | nil => exact (List.length_eq_zero_iff.1 hlength.symm).symm
  | cons bit rest ih =>
    obtain _ | ⟨other, more⟩ := back
    · simp at hlength
    have hrest : rest.length = more.length := by simpa using hlength
    have hlow := toNat_lt rest
    have hmore := toNat_lt more
    rw [toNat_cons, toNat_cons, hrest] at h
    rw [hrest] at hlow
    -- The lower bits cannot make up for a difference in the highest one.
    have hbit : bit = other := by cases bit <;> cases other <;> simp at h ⊢ <;> omega
    subst hbit
    rw [ih hrest (by omega)]

theorem ofNat_toNat (bits : List Bool) : ofNat bits.length (toNat bits) = bits :=
  toNat_injective (length_ofNat _ _) (toNat_ofNat (toNat_lt bits))

end Bits

namespace Machine

/-- The bits that digits stand for. -/
def digitBits (digits : Text) : List Bool := digits.map (· == '1')

namespace Field

/-- The bits a field puts into a word. -/
def bits (field : Field) : List Bool := Bits.ofNat field.width field.value

def Fits (field : Field) : Prop := field.value < Bits.capacity field.width

theorem length_bits (field : Field) : field.bits.length = field.width := Bits.length_ofNat _ _

theorem toNat_bits {field : Field} (h : field.Fits) : Bits.toNat field.bits = field.value :=
  Bits.toNat_ofNat h

theorem bits_ofDigits (digits : Text) : (ofDigits digits).bits = digitBits digits := by
  have h := Bits.ofNat_toNat (digitBits digits)
  rwa [digitBits, List.length_map] at h

theorem fits_ofDigits (digits : Text) : (ofDigits digits).Fits := by
  have h := Bits.toNat_lt (digitBits digits)
  rwa [digitBits, List.length_map] at h

theorem bits_ofFlags (layout : Text) (flags : FlagSet) :
    (ofFlags layout flags).bits = layout.map flags.hasLetter := by
  have h := Bits.ofNat_toNat (layout.map flags.hasLetter)
  rwa [List.length_map] at h

theorem fits_ofFlags (layout : Text) (flags : FlagSet) : (ofFlags layout flags).Fits := by
  have h := Bits.toNat_lt (layout.map flags.hasLetter)
  rwa [List.length_map] at h

end Field

theorem foldl_width (fields : List Field) (start : ℕ) :
    fields.foldl (fun n field ↦ n + field.width) start =
      start + (fields.flatMap Field.bits).length := by
  induction fields generalizing start with
  | nil => rfl
  | cons field rest ih =>
    rw [List.foldl_cons, ih, List.flatMap_cons, List.length_append, Field.length_bits,
      Nat.add_assoc]

theorem totalWidth_eq (fields : List Field) :
    totalWidth fields = (fields.flatMap Field.bits).length := by
  rw [totalWidth, foldl_width, Nat.zero_add]

theorem foldl_pack (fields : List Field) (hfit : ∀ field ∈ fields, field.Fits) (start : ℕ) :
    fields.foldl (fun n field ↦ n * Bits.capacity field.width + field.value) start =
      start * Bits.capacity (fields.flatMap Field.bits).length +
        Bits.toNat (fields.flatMap Field.bits) := by
  induction fields generalizing start with
  | nil => simp [Bits.capacity_eq]
  | cons field rest ih =>
    have hrest : ∀ other ∈ rest, other.Fits := fun other hmem ↦
      hfit other (List.mem_cons_of_mem field hmem)
    rw [List.foldl_cons, ih hrest, List.flatMap_cons, List.length_append, Field.length_bits,
      Bits.capacity_add, Bits.toNat_append, Field.toNat_bits (hfit field List.mem_cons_self)]
    ring

/-- Packing by arithmetic lays the bits of the fields side by side. -/
theorem pack_eq_toNat {fields : List Field} (hfit : ∀ field ∈ fields, field.Fits) :
    pack fields = Bits.toNat (fields.flatMap Field.bits) := by
  rw [pack, foldl_pack fields hfit, Nat.zero_mul, Nat.zero_add]

end Machine

end Sequencer
