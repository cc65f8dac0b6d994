import Sequencer.Sweep
import Sequencer.Text.Basic

/-!
# Tables ordered by name

A table holds at most one entry for a name, in ascending order of the names. Names are compared
character by character, by code point.
-/

namespace Sequencer

structure Table (α : Type) where
  entries : List (Text × α) := []
  ordered : (entries.map Prod.fst).Pairwise (· < ·) := by simp

namespace Table

variable {α β σ ε : Type}

def empty : Table α := {}

def keys (table : Table α) : List Text := table.entries.map Prod.fst

def size (table : Table α) : Nat := table.entries.length

def isEmpty (table : Table α) : Bool := table.entries.isEmpty

def get? (table : Table α) (name : Text) : Option α := table.entries.lookup name

/-- Place an entry before the first greater name. -/
def place (name : Text) (value : α) : List (Text × α) → List (Text × α)
  | [] => [(name, value)]
  | (other, held) :: rest =>
    if other < name then (other, held) :: place name value rest
    else (name, value) :: (other, held) :: rest

theorem mem_keys_place {name other : Text} {value : α} {entries : List (Text × α)} :
    other ∈ (place name value entries).map Prod.fst ↔
      other = name ∨ other ∈ entries.map Prod.fst := by
  induction entries with
  | nil => simp [place]
  | cons entry rest ih =>
    simp only [place]
    split <;> simp_all [or_left_comm]

theorem lookup_eq_none {name : Text} {entries : List (Text × α)} :
    entries.lookup name = none ↔ name ∉ entries.map Prod.fst := by
  rw [List.lookup_eq_none_iff]
  constructor
  · intro absent member
    obtain ⟨entry, mem, rfl⟩ := List.mem_map.1 member
    simpa using absent entry mem
  · intro absent entry mem
    have differs : name ≠ entry.1 := fun h ↦ absent (List.mem_map.2 ⟨entry, mem, h.symm⟩)
    simpa using differs

theorem ordered_place {name : Text} {value : α} {entries : List (Text × α)}
    (ordered : (entries.map Prod.fst).Pairwise (· < ·)) (fresh : name ∉ entries.map Prod.fst) :
    ((place name value entries).map Prod.fst).Pairwise (· < ·) := by
  induction entries with
  | nil => simp [place]
  | cons entry rest ih =>
    simp only [List.map_cons, List.pairwise_cons] at ordered
    simp only [List.map_cons, List.mem_cons, not_or] at fresh
    simp only [place]
    split
    case isTrue less =>
      simp only [List.map_cons, List.pairwise_cons]
      refine ⟨fun other member ↦ ?_, ih ordered.2 fresh.2⟩
      rcases mem_keys_place.1 member with rfl | member
      · exact less
      · exact ordered.1 other member
    case isFalse notLess =>
      have less : name < entry.1 :=
        Std.lt_of_le_of_ne (Std.not_lt.1 notLess) fresh.1
      simp only [List.map_cons, List.pairwise_cons, List.mem_cons]
      refine ⟨fun other member ↦ ?_, ordered.1, ordered.2⟩
      rcases member with rfl | member
      · exact less
      · exact Std.lt_trans less (ordered.1 other member)

/-- Add an entry under a new name; under a name the table has already, the held value is the
fault. -/
def define (table : Table α) (name : Text) (value : α) : Except α (Table α) :=
  match h : table.get? name with
  | some held => .error held
  | none => .ok ⟨place name value table.entries, ordered_place table.ordered (lookup_eq_none.1 h)⟩

/-- Change the values where they stand; the names stay. -/
def mapWithKey (table : Table α) (f : Text → α → β) : Table β where
  entries := table.entries.map fun (name, value) ↦ (name, f name value)
  ordered := by simpa [Function.comp_def] using table.ordered

/-- Sweep over the values in the order of their names. -/
def sweep (table : Table α) (step : σ → Text → α → σ × Except ε α) (state : σ) :
    Table α × σ × Except ε Unit :=
  let entryStep := fun state (name, value) ↦
    let (state, outcome) := step state name value
    (state, outcome.map fun value ↦ (name, value))
  let swept := Sequencer.sweep entryStep state table.entries
  have keeps : ∀ state entry changed,
      (entryStep state entry).2 = .ok changed → changed.1 = entry.1 := by
    intro state entry changed h
    simp only [entryStep] at h
    cases hstep : (step state entry.1 entry.2).2 with
    | error fault => simp [hstep, Except.map] at h
    | ok value =>
      simp only [hstep, Except.map, Except.ok.injEq] at h
      rw [← h]
  ({ entries := swept.1, ordered := by rw [map_sweep keeps]; exact table.ordered }, swept.2)

end Table

end Sequencer
