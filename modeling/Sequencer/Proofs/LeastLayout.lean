import Mathlib
import Sequencer.Proofs.Linking

/-!
# The least layout

Addresses are chosen from front to back, each as low as its alignment allows. Such a layout is the
lowest of all: in no other layout that respects the alignments does any command stand before its
place in this one. The pass that assigns addresses computes it, in arithmetic of 32 bits that is
never exceeded, up to the first command beyond the program memory.
-/

namespace Sequencer

namespace Layout

/-- Addresses are multiples of this. Alignment zero counts as one. -/
def granule (alignment : UInt16) : ℕ := max alignment.toNat 1

/-- The first address is zero, and each further one is the least multiple of its alignment above the
one before it. -/
structure IsGreedy (alignments : List UInt16) (address : ℕ → ℕ) : Prop where
  zero : address 0 = 0
  isLeast : ∀ place alignment, alignments[place + 1]? = some alignment →
    IsLeast {next | address place < next ∧ granule alignment ∣ next} (address (place + 1))

theorem isLeast_leastAfter (previous : ℕ) (alignment : UInt16) :
    IsLeast {next | previous < next ∧ granule alignment ∣ next}
      (leastAfter previous alignment) := by
  refine ⟨⟨lt_leastAfter previous alignment, Dvd.intro_left _ rfl⟩, ?_⟩
  rintro _ ⟨hlt, multiple, rfl⟩
  have hquotient : previous / granule alignment < multiple := Nat.div_lt_of_lt_mul hlt
  calc
    leastAfter previous alignment = granule alignment * (previous / granule alignment + 1) :=
      Nat.mul_comm _ _
    _ ≤ granule alignment * multiple := Nat.mul_le_mul_left _ hquotient

theorem getElem?_addresses_succ {previous : Option ℕ} {alignments : List UInt16} {place : ℕ}
    {alignment : UInt16} {address : ℕ} (halignment : alignments[place + 1]? = some alignment)
    (haddress : (addresses previous alignments)[place]? = some address) :
    (addresses previous alignments)[place + 1]? = some (leastAfter address alignment) := by
  induction alignments generalizing previous place with
  | nil => cases halignment
  | cons first rest ih =>
    cases place with
    | zero =>
      obtain rfl := Option.some.inj haddress
      cases rest with
      | nil => cases halignment
      | cons second rest =>
        obtain rfl := Option.some.inj halignment
        rfl
    | succ place => exact ih halignment haddress

theorem isGreedy_addresses (alignments : List UInt16) :
    IsGreedy alignments fun place ↦ (addresses none alignments).getD place 0 where
  zero := by cases alignments <;> rfl
  isLeast := by
    intro place alignment halignment
    have hlt : place < (addresses none alignments).length := by
      rw [length_addresses]
      exact Nat.lt_of_succ_lt (List.getElem?_eq_some_iff.1 halignment).1
    have hnext := getElem?_addresses_succ halignment (List.getElem?_eq_getElem hlt)
    simp only [List.getD_eq_getElem?_getD, hnext, List.getElem?_eq_getElem hlt, Option.getD_some]
    exact isLeast_leastAfter _ alignment

/-- No ascending sequence of multiples of the alignments stays below the greedy one. -/
theorem IsGreedy.le {alignments : List UInt16} {address other : ℕ → ℕ}
    (h : IsGreedy alignments address)
    (hascends : ∀ place, place + 1 < alignments.length → other place < other (place + 1))
    (hmultiple : ∀ place alignment, alignments[place + 1]? = some alignment →
      granule alignment ∣ other (place + 1)) {place : ℕ} (hplace : place < alignments.length) :
    address place ≤ other place := by
  induction place with
  | zero =>
    rw [h.zero]
    exact Nat.zero_le _
  | succ place ih =>
    have halignment := List.getElem?_eq_getElem hplace
    apply (h.isLeast place _ halignment).2
    refine ⟨?_, hmultiple place _ halignment⟩
    exact (ih (Nat.lt_of_succ_lt hplace)).trans_lt (hascends place hplace)

/-- From an address of the program memory, 32 bits hold every step of the computation, and its
result is the next address. -/
theorem IsGreedy.toNat_nextAddress {alignments : List UInt16} {address : ℕ → ℕ}
    (h : IsGreedy alignments address) {place : ℕ} {alignment : UInt16}
    (halignment : alignments[place + 1]? = some alignment) (hfit : address place ≤ maxAddress) :
    address place + granule alignment < UInt32.size ∧
      (nextAddress (some (UInt32.ofNat (address place))) alignment).toNat =
        address (place + 1) := by
  have hmax : maxAddress = 65535 := rfl
  have hsize : UInt32.size = 4294967296 := rfl
  have hword := alignment.toNat_lt
  have hpreserved : (UInt32.ofNat (address place)).toNat = address place :=
    UInt32.toNat_ofNat_of_lt' (by omega)
  refine ⟨by unfold granule; omega, ?_⟩
  rw [Sequencer.toNat_nextAddress (by simp [hpreserved, hfit]), Option.map_some, hpreserved]
  exact (isLeast_leastAfter _ alignment).unique (h.isLeast place alignment halignment)

end Layout

namespace Command

/-- The first `count` commands got their addresses, and nothing else was changed. -/
structure Placed (address : ℕ → ℕ) (count : ℕ) (commands placed : List Command) : Prop where
  length_eq : placed.length = commands.length
  before : ∀ place command, commands[place]? = some command → place < count →
    ∃ word : UInt16, word.toNat = address place ∧
      placed[place]? = some { command with address := word }
  beyond : ∀ place, count ≤ place → placed[place]? = commands[place]?

theorem placed_append {front : List Command} {layout : List ℕ} {address : ℕ → ℕ}
    (hlayout : ∀ place < front.length, layout[place]? = some (address place))
    (hfit : ∀ place < front.length, address place ≤ maxAddress) (back : List Command) :
    Placed address front.length (front ++ back)
      (List.zipWith placedAt front layout ++ back) := by
  have hlength : (List.zipWith placedAt front layout).length = front.length := by
    rw [List.length_zipWith, Nat.min_eq_left]
    by_contra! hshort
    have hnone := hlayout layout.length hshort
    rw [List.getElem?_eq_none le_rfl] at hnone
    cases hnone
  refine ⟨by simp [hlength], ?_, ?_⟩
  · intro place command hcommand hlt
    rw [List.getElem?_append_left hlt] at hcommand
    refine ⟨UInt16.ofNat (address place), ?_, ?_⟩
    · exact UInt16.toNat_ofNat_of_lt' (Nat.lt_succ_of_le (hfit place hlt))
    · rw [List.getElem?_append_left (hlength ▸ hlt), List.getElem?_zipWith, hcommand,
        hlayout place hlt]
      rfl
  · intro place hle
    rw [List.getElem?_append_right (hlength ▸ hle), List.getElem?_append_right hle, hlength]

end Command

namespace Draft

open Layout

/-- The address that the layout gives to the command at a place. -/
def addressAt (draft : Draft) (place : ℕ) : ℕ := draft.layout.getD place 0

variable {draft : Draft}

theorem getElem?_layout_eq {place : ℕ} (h : place < draft.commands.length) :
    draft.layout[place]? = some (draft.addressAt place) := by
  rw [← length_layout] at h
  rw [addressAt, List.getD_eq_getElem _ _ h, List.getElem?_eq_getElem h]

theorem fitsMemory_iff : draft.FitsMemory ↔
    ∀ place < draft.commands.length, draft.addressAt place ≤ maxAddress := by
  constructor
  · intro hfit place hplace
    exact hfit _ (List.mem_of_getElem? (getElem?_layout_eq hplace))
  · intro hfit address hmem
    obtain ⟨place, hplace⟩ := List.mem_iff_getElem?.1 hmem
    obtain ⟨hlt, -⟩ := List.getElem?_eq_some_iff.1 hplace
    rw [length_layout] at hlt
    rw [getElem?_layout_eq hlt, Option.some.injEq] at hplace
    rw [← hplace]
    exact hfit place hlt

/-- How the pass ends, when `address` says where each command would stand: it succeeds if all stand
in the program memory, and else it stops at the first that does not. -/
structure AssignsAddresses (draft : Draft) (address : ℕ → ℕ) : Prop where
  succeeds_iff : draft.assignAddresses.2 = .ok () ↔
    ∀ place < draft.commands.length, address place ≤ maxAddress
  succeeds : draft.assignAddresses.2 = .ok () → ∃ placed,
    Command.Placed address draft.commands.length draft.commands placed ∧
      draft.assignAddresses = ({ draft with commands := placed }, .ok ())
  stops : ∀ place command, draft.commands[place]? = some command →
    (∀ earlier < place, address earlier ≤ maxAddress) → maxAddress < address place →
      ∃ placed, Command.Placed address place draft.commands placed ∧
        draft.assignAddresses =
          ({ draft with
              commands := placed
              report := (draft.report.fatal .linker (some command.line)
                (addressMessage (address place))).1 },
            .error (.fatal .linker (some command.line) (addressMessage (address place))))

theorem assignAddresses_of_fitsMemory (hfit : draft.FitsMemory) :
    ∃ placed, Command.Placed draft.addressAt draft.commands.length draft.commands placed ∧
      draft.assignAddresses = ({ draft with commands := placed }, .ok ()) := by
  refine ⟨_, ?_, assignAddresses_eq_placed hfit⟩
  have hplaced := Command.placed_append (fun _ ↦ getElem?_layout_eq) (fitsMemory_iff.1 hfit) []
  rwa [List.append_nil, List.append_nil] at hplaced

/-- The pass stops at the first command beyond the program memory, and there is only one first. -/
theorem assignAddresses_of_beyond {place : ℕ} {command : Command}
    (hcommand : draft.commands[place]? = some command)
    (hearlier : ∀ earlier < place, draft.addressAt earlier ≤ maxAddress)
    (hbeyond : maxAddress < draft.addressAt place) :
    ∃ placed, Command.Placed draft.addressAt place draft.commands placed ∧
      draft.assignAddresses =
        ({ draft with
            commands := placed
            report := (draft.report.fatal .linker (some command.line)
              (addressMessage (draft.addressAt place))).1 },
          .error (.fatal .linker (some command.line)
            (addressMessage (draft.addressAt place)))) := by
  obtain ⟨hplace, -⟩ := List.getElem?_eq_some_iff.1 hcommand
  obtain ⟨front, stopped, back, last, address, hsplit, hfront, haddress, hlt, hsweep⟩ :=
    sweep_placeCommand_fatal draft.commands none (by simp) draft.report
      (show draft.layout = _ from rfl)
      ⟨_, List.mem_of_getElem? (getElem?_layout_eq hplace), hbeyond⟩
  have hlength : front.length < draft.commands.length := by simp [hsplit]
  have hlayout : ∀ earlier < front.length,
      draft.layout[earlier]? = some (draft.addressAt earlier) :=
    fun earlier hlt ↦ getElem?_layout_eq (hlt.trans hlength)
  have hfits : ∀ earlier < front.length, draft.addressAt earlier ≤ maxAddress := by
    intro earlier hlt
    apply hfront
    apply List.mem_of_getElem?
    rw [List.getElem?_take_of_lt hlt]
    exact hlayout earlier hlt
  obtain rfl : draft.addressAt front.length = address :=
    Option.some.inj ((getElem?_layout_eq hlength).symm.trans haddress)
  obtain rfl : front.length = place := by
    rcases Nat.lt_trichotomy front.length place with hbefore | hsame | hafter
    · exact absurd (hearlier _ hbefore) (by omega)
    · exact hsame
    · exact absurd (hfits _ hafter) (by omega)
  obtain rfl : stopped = command := by simpa [hsplit] using hcommand
  refine ⟨List.zipWith Command.placedAt front draft.layout ++ stopped :: back, ?_, ?_⟩
  · have hplaced := Command.placed_append hlayout hfits (stopped :: back)
    rwa [← hsplit] at hplaced
  · unfold assignAddresses
    rw [hsweep]

theorem assignAddresses_eq_ok_iff : draft.assignAddresses.2 = .ok () ↔ draft.FitsMemory := by
  constructor
  · intro hok
    by_contra hfit
    obtain ⟨commands, line, message, hfatal⟩ := assignAddresses_fatal hfit
    rw [hfatal] at hok
    cases hok
  · intro hfit
    rw [assignAddresses_eq_placed hfit]

theorem assignsAddresses_addressAt (draft : Draft) : draft.AssignsAddresses draft.addressAt where
  succeeds_iff := assignAddresses_eq_ok_iff.trans fitsMemory_iff
  succeeds := fun hok ↦ assignAddresses_of_fitsMemory (assignAddresses_eq_ok_iff.1 hok)
  stops := fun _ _ ↦ assignAddresses_of_beyond

/-- The addresses that the pass assigns are the least that the alignments allow. It succeeds just
when they all lie in the program memory, and else it stops at the first command that does not. No
step of it exceeds 32 bits, and no other ascending addresses that are multiples of the alignments
are lower anywhere. -/
theorem assignAddresses_least (draft : Draft) :
    ∃ address, IsGreedy (draft.commands.map Command.alignment) address ∧
      draft.AssignsAddresses address ∧
      (∀ place alignment, (draft.commands.map Command.alignment)[place + 1]? = some alignment →
        address place ≤ maxAddress → address place + granule alignment < UInt32.size ∧
          (nextAddress (some (UInt32.ofNat (address place))) alignment).toNat =
            address (place + 1)) ∧
      ∀ other : ℕ → ℕ,
        (∀ place, place + 1 < draft.commands.length → other place < other (place + 1)) →
        (∀ place alignment, (draft.commands.map Command.alignment)[place + 1]? = some alignment →
          granule alignment ∣ other (place + 1)) →
        ∀ place < draft.commands.length, address place ≤ other place := by
  have hgreedy := isGreedy_addresses (draft.commands.map Command.alignment)
  refine ⟨draft.addressAt, hgreedy, draft.assignsAddresses_addressAt, ?_, ?_⟩
  · intro place alignment halignment hfit
    exact hgreedy.toNat_nextAddress halignment hfit
  · intro other hascends hmultiple place hplace
    rw [← List.length_map Command.alignment] at hascends hplace
    exact hgreedy.le hascends hmultiple hplace

end Draft

end Sequencer
