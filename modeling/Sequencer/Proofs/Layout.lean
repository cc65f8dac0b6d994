import Mathlib
import Sequencer.Layout
import Sequencer.Proofs.Sweep

/-!
# The layout over the natural numbers

Without a bound on addresses, each command would stand at the least multiple of its alignment after
the command before it. As long as that address is one of the program memory, the arithmetic of 32
bits computes just this layout; the first command for which it is not ends the pass.
-/

namespace Sequencer

namespace Layout

/-- The least multiple of an alignment above an address. Alignment zero counts as one. -/
def leastAfter (previous : ℕ) (alignment : UInt16) : ℕ :=
  (previous / max alignment.toNat 1 + 1) * max alignment.toNat 1

theorem lt_leastAfter (previous : ℕ) (alignment : UInt16) :
    previous < leastAfter previous alignment := by
  unfold leastAfter
  rw [Nat.mul_comm]
  exact Nat.lt_mul_div_succ previous (by omega)

theorem dvd_leastAfter (previous : ℕ) (alignment : UInt16) :
    alignment.toNat ∣ leastAfter previous alignment ∨ alignment = 0 := by
  by_cases h : alignment = 0
  · exact .inr h
  · have hpos : 0 < alignment.toNat := Nat.pos_of_ne_zero fun hzero ↦
      h (UInt16.toNat_inj.1 hzero)
    rw [leastAfter, Nat.max_eq_left hpos]
    exact .inl (Dvd.intro_left _ rfl)

/-- The address of a command after the one at `previous`. -/
def next (previous : Option ℕ) (alignment : UInt16) : ℕ :=
  match previous with
  | none => 0
  | some address => leastAfter address alignment

/-- The addresses of commands with these alignments after the one at `previous`. -/
def addresses : Option ℕ → List UInt16 → List ℕ
  | _, [] => []
  | previous, alignment :: rest =>
    next previous alignment :: addresses (some (next previous alignment)) rest

@[simp]
theorem length_addresses (previous : Option ℕ) (alignments : List UInt16) :
    (addresses previous alignments).length = alignments.length := by
  induction alignments generalizing previous with
  | nil => rfl
  | cons alignment rest ih => rw [addresses, List.length_cons, ih, List.length_cons]

theorem lt_of_mem_addresses {previous address : ℕ} {alignments : List UInt16}
    (h : address ∈ addresses (some previous) alignments) : previous < address := by
  induction alignments generalizing previous with
  | nil => simp [addresses] at h
  | cons alignment rest ih =>
    have hnext : previous < next (some previous) alignment := lt_leastAfter previous alignment
    rcases List.mem_cons.1 h with rfl | hrest
    · exact hnext
    · exact hnext.trans (ih hrest)

theorem pairwise_addresses (previous : Option ℕ) (alignments : List UInt16) :
    (addresses previous alignments).Pairwise (· < ·) := by
  induction alignments generalizing previous with
  | nil => exact .nil
  | cons alignment rest ih => exact .cons (fun _ hmem ↦ lt_of_mem_addresses hmem) (ih _)

/-- Every address is a multiple of the alignment it was chosen for. -/
theorem dvd_next (previous : Option ℕ) {alignment : UInt16} {divisor : ℕ}
    (halign : divisor ∣ alignment.toNat) (hzero : alignment ≠ 0) :
    divisor ∣ next previous alignment := by
  cases previous with
  | none => exact dvd_zero divisor
  | some address =>
    exact halign.trans ((dvd_leastAfter address alignment).resolve_right hzero)

theorem dvd_of_getElem?_addresses {previous : Option ℕ} {alignments : List UInt16} {place : ℕ}
    {alignment : UInt16} {address divisor : ℕ} (halignment : alignments[place]? = some alignment)
    (haddress : (addresses previous alignments)[place]? = some address)
    (hdvd : divisor ∣ alignment.toNat) (hzero : alignment ≠ 0) : divisor ∣ address := by
  induction alignments generalizing previous place with
  | nil => cases halignment
  | cons first rest ih =>
    cases place with
    | zero =>
      obtain rfl := Option.some.inj halignment
      obtain rfl := Option.some.inj haddress
      exact dvd_next previous hdvd hzero
    | succ place => exact ih halignment haddress

theorem eq_zero_of_getElem?_addresses {alignments : List UInt16} {address : ℕ}
    (h : (addresses none alignments)[0]? = some address) : address = 0 := by
  cases alignments with
  | nil => cases h
  | cons alignment rest => exact (Option.some.inj h).symm

/-- Commands that follow do not move those before them. -/
theorem addresses_prefix_append (previous : Option ℕ) (alignments more : List UInt16) :
    addresses previous alignments <+: addresses previous (alignments ++ more) := by
  induction alignments generalizing previous with
  | nil => exact ⟨_, List.nil_append _⟩
  | cons alignment rest ih => exact List.cons_prefix_cons.2 ⟨rfl, ih _⟩

/-- An address that is a multiple of its alignment already is not moved. -/
theorem leastAfter_eq_succ {previous : ℕ} {alignment : UInt16}
    (h : alignment.toNat ∣ previous + 1) : leastAfter previous alignment = previous + 1 := by
  have hpos : 0 < alignment.toNat := Nat.pos_of_dvd_of_pos h (Nat.succ_pos previous)
  rw [leastAfter, Nat.max_eq_left hpos, ← Nat.succ_div_of_dvd h, Nat.div_mul_cancel h]

/-- Where every place is a multiple of its alignment, the layout skips no address. -/
theorem addresses_eq_range' {alignments : List UInt16} {previous : ℕ}
    (h : ∀ (place : ℕ) (alignment : UInt16), alignments[place]? = some alignment →
      alignment.toNat ∣ previous + 1 + place) :
    addresses (some previous) alignments = List.range' (previous + 1) alignments.length := by
  induction alignments generalizing previous with
  | nil => rfl
  | cons alignment rest ih =>
    have hfirst := leastAfter_eq_succ (h 0 alignment rfl)
    rw [addresses, next, hfirst, List.length_cons, List.range'_succ]
    rw [ih fun place alignment hplace ↦ ?_]
    rw [Nat.add_assoc, Nat.add_comm 1 place]
    exact h (place + 1) alignment hplace

theorem addresses_eq_range {alignments : List UInt16}
    (h : ∀ (place : ℕ) (alignment : UInt16), alignments[place]? = some alignment →
      alignment.toNat ∣ place) :
    addresses none alignments = List.range alignments.length := by
  cases alignments with
  | nil => rfl
  | cons alignment rest =>
    rw [addresses, next, List.range_eq_range', List.length_cons, List.range'_succ,
      addresses_eq_range' fun place alignment hplace ↦ ?_]
    rw [Nat.add_comm]
    exact h (place + 1) alignment hplace

end Layout

open Layout

theorem toNat_max (a b : UInt16) : (max a b).toNat = max a.toNat b.toNat := by
  rw [show max a b = if a ≤ b then b else a from rfl]
  split
  · next h => exact (Nat.max_eq_right (UInt16.le_iff_toNat_le.1 h)).symm
  · next h => exact (Nat.max_eq_left (by rw [UInt16.le_iff_toNat_le] at h; omega)).symm

/-- From an address of the program memory, the next one is computed without wrapping. -/
theorem toNat_nextAddress {previous : Option UInt32}
    (hprevious : ∀ address ∈ previous, address.toNat ≤ maxAddress) (alignment : UInt16) :
    (nextAddress previous alignment).toNat = next (previous.map UInt32.toNat) alignment := by
  cases previous with
  | none => rfl
  | some address =>
    have haddress := hprevious address rfl
    have halign := alignment.toNat_lt
    simp only [nextAddress, Option.map_some, next, leastAfter]
    generalize hstep : (max alignment 1).toUInt32 = step
    have hstepNat : step.toNat = max alignment.toNat 1 := by
      rw [← hstep, UInt16.toNat_toUInt32, toNat_max]
      rfl
    rw [← hstepNat]
    have hpos : 0 < step.toNat := by omega
    have hbound : step.toNat ≤ 65536 := by omega
    have hmax : maxAddress = 65535 := rfl
    have hmod : address.toNat % step.toNat < step.toNat := Nat.mod_lt _ hpos
    have hsum : (address + step).toNat = address.toNat + step.toNat := by
      rw [UInt32.toNat_add]
      exact Nat.mod_eq_of_lt (by omega)
    have hle : address % step ≤ address + step := by
      rw [UInt32.le_iff_toNat_le, UInt32.toNat_mod, hsum]
      omega
    have hdivision := Nat.div_add_mod address.toNat step.toNat
    rw [UInt32.toNat_sub_of_le _ _ hle, hsum, UInt32.toNat_mod, Nat.add_mul, Nat.one_mul,
      Nat.mul_comm (address.toNat / step.toNat)]
    omega

namespace Command

/-- The command at an address. -/
def placedAt (command : Command) (address : ℕ) : Command :=
  { command with address := UInt16.ofNat address }

end Command

namespace Draft

/-- Why a command that has no address in the program memory ends the pass. -/
def addressMessage (address : ℕ) : String := s!"address {address} exceeds program memory"

/-- One step of the pass, in terms of the layout over the natural numbers. -/
theorem placeCommand_eq {previous : Option UInt32}
    (hprevious : ∀ address ∈ previous, address.toNat ≤ maxAddress) (report : Report)
    (command : Command) :
    placeCommand (previous, report) command =
      if next (previous.map UInt32.toNat) command.alignment ≤ maxAddress then
        ((some (nextAddress previous command.alignment), report),
          .ok (command.placedAt (next (previous.map UInt32.toNat) command.alignment)))
      else
        ((previous, (report.fatal .linker (some command.line)
            (addressMessage (next (previous.map UInt32.toNat) command.alignment))).1),
          .error (.fatal .linker (some command.line)
            (addressMessage (next (previous.map UInt32.toNat) command.alignment)))) := by
  rw [← toNat_nextAddress hprevious]
  by_cases h : (nextAddress previous command.alignment).toNat ≤ maxAddress
  · simp only [placeCommand, if_pos h]
    rfl
  · simp only [placeCommand, if_neg h]
    rfl

theorem map_nextAddress {previous : Option UInt32}
    (hprevious : ∀ address ∈ previous, address.toNat ≤ maxAddress) (alignment : UInt16) :
    (some (nextAddress previous alignment)).map UInt32.toNat =
      some (next (previous.map UInt32.toNat) alignment) := by
  rw [Option.map_some, toNat_nextAddress hprevious]

theorem nextAddress_le {previous : Option UInt32} {alignment : UInt16}
    (hprevious : ∀ address ∈ previous, address.toNat ≤ maxAddress)
    (hfit : next (previous.map UInt32.toNat) alignment ≤ maxAddress) :
    ∀ address ∈ some (nextAddress previous alignment), address.toNat ≤ maxAddress := by
  rintro address ⟨⟩
  rw [toNat_nextAddress hprevious]
  exact hfit

/-- As long as the layout stays within the program memory, the pass computes it. -/
theorem sweep_placeCommand_ok (commands : List Command) (previous : Option UInt32)
    (hprevious : ∀ address ∈ previous, address.toNat ≤ maxAddress) (report : Report)
    (hfit : ∀ address ∈ addresses (previous.map UInt32.toNat) (commands.map Command.alignment),
      address ≤ maxAddress) :
    ∃ last, sweep placeCommand (previous, report) commands =
      (List.zipWith Command.placedAt commands
        (addresses (previous.map UInt32.toNat) (commands.map Command.alignment)),
        (last, report), .ok ()) := by
  induction commands generalizing previous with
  | nil => exact ⟨previous, rfl⟩
  | cons command rest ih =>
    rw [List.map_cons, addresses, List.forall_mem_cons] at hfit
    have hstep := placeCommand_eq hprevious report command
    rw [if_pos hfit.1] at hstep
    have hnext := map_nextAddress hprevious command.alignment
    obtain ⟨last, hlast⟩ := ih (some (nextAddress previous command.alignment))
      (nextAddress_le hprevious hfit.1) (by rw [hnext]; exact hfit.2)
    refine ⟨last, ?_⟩
    rw [sweep_cons_ok hstep, hlast, hnext]
    rfl

/-- The first command that the layout puts beyond the program memory ends the pass. Those before it
are placed, and it stays as it was with all that follow. -/
theorem sweep_placeCommand_fatal (commands : List Command) (previous : Option UInt32)
    (hprevious : ∀ address ∈ previous, address.toNat ≤ maxAddress) (report : Report)
    {layout : List ℕ}
    (hlayout : layout = addresses (previous.map UInt32.toNat) (commands.map Command.alignment))
    (hbeyond : ∃ address ∈ layout, maxAddress < address) :
    ∃ front command back last address, commands = front ++ command :: back ∧
      (∀ earlier ∈ layout.take front.length, earlier ≤ maxAddress) ∧
      layout[front.length]? = some address ∧ maxAddress < address ∧
      sweep placeCommand (previous, report) commands =
        (List.zipWith Command.placedAt front layout ++ command :: back,
          (last, (report.fatal .linker (some command.line) (addressMessage address)).1),
          .error (.fatal .linker (some command.line) (addressMessage address))) := by
  induction commands generalizing previous layout with
  | nil => simp [hlayout, addresses] at hbeyond
  | cons command rest ih =>
    rw [List.map_cons, addresses] at hlayout
    subst hlayout
    have hstep := placeCommand_eq hprevious report command
    by_cases hfit : next (previous.map UInt32.toNat) command.alignment ≤ maxAddress
    · rw [if_pos hfit] at hstep
      rw [List.exists_mem_cons_iff] at hbeyond
      obtain ⟨front, beyond, back, last, address, rfl, hearlier, haddress, hlt, hrest⟩ :=
        ih (some (nextAddress previous command.alignment)) (nextAddress_le hprevious hfit)
          (by rw [map_nextAddress hprevious]) (hbeyond.resolve_left (by omega))
      refine ⟨command :: front, beyond, back, last, address, rfl, ?_, haddress, hlt, ?_⟩
      · exact List.forall_mem_cons.2 ⟨hfit, hearlier⟩
      · rw [sweep_cons_ok hstep, hrest]
        rfl
    · rw [if_neg hfit] at hstep
      exact ⟨[], command, rest, _, _, rfl, by simp, rfl, by omega, sweep_cons_error hstep rest⟩

end Draft

end Sequencer
