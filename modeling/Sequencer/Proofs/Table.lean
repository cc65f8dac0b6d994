import Mathlib
import Sequencer.Table

/-!
# Looking names up

What a table holds under a name after an entry was added or all values were changed.
-/

namespace Sequencer.Table

variable {α β : Type}

theorem ext_entries {a b : Table α} (h : a.entries = b.entries) : a = b := by
  cases a
  cases b
  cases h
  rfl

theorem lookup_cons_eq (other : Text) (entry : Text × α) (rest : List (Text × α)) :
    (entry :: rest).lookup other = if other = entry.1 then some entry.2 else rest.lookup other := by
  rw [List.lookup_cons]
  by_cases h : other = entry.1
  · simp [h]
  · rw [beq_false_of_ne h, if_neg h]

/-- Every entry is the one that its name looks up. -/
theorem get?_of_mem {table : Table α} {name : Text} {value : α}
    (h : (name, value) ∈ table.entries) : table.get? name = some value := by
  obtain ⟨entries, hordered⟩ := table
  simp only [get?] at h ⊢
  induction entries with
  | nil => cases h
  | cons entry rest ih =>
    rw [List.map_cons, List.pairwise_cons] at hordered
    rw [lookup_cons_eq]
    rcases List.mem_cons.1 h with rfl | hrest
    · rw [if_pos rfl]
    · have hless := hordered.1 name (List.mem_map.2 ⟨_, hrest, rfl⟩)
      rw [if_neg fun heq ↦ Std.lt_irrefl (heq ▸ hless), ih hordered.2 hrest]

theorem nodup_keys (table : Table α) : table.keys.Nodup :=
  table.ordered.imp Std.ne_of_lt

theorem get?_isSome_iff {table : Table α} {name : Text} :
    (table.get? name).isSome ↔ name ∈ table.keys := by
  rw [Option.isSome_iff_ne_none, get?, keys, ne_eq, lookup_eq_none, not_not]

/-- A search that looks only at one name finds what is made of the value there. -/
theorem findSome?_entries {table : Table α} {name : Text} {f : Text × α → Option β}
    {g : α → Option β}
    (h : ∀ entry ∈ table.entries, f entry = if name = entry.1 then g entry.2 else none) :
    table.entries.findSome? f = (table.get? name).bind g := by
  obtain ⟨entries, hordered⟩ := table
  simp only [get?] at h ⊢
  induction entries with
  | nil => rfl
  | cons entry rest ih =>
    rw [List.map_cons, List.pairwise_cons] at hordered
    obtain ⟨hentry, hrest⟩ := List.forall_mem_cons.1 h
    rw [List.findSome?_cons, hentry, lookup_cons_eq]
    by_cases hname : name = entry.1
    · have hnone : rest.findSome? f = none := by
        rw [List.findSome?_eq_none_iff]
        intro other hmem
        rw [hrest other hmem, if_neg]
        intro hother
        have hless := hordered.1 other.1 (List.mem_map_of_mem hmem)
        exact Std.lt_irrefl (hother ▸ hname ▸ hless)
      rw [if_pos hname, if_pos hname, Option.bind_some, hnone]
      cases g entry.2 <;> rfl
    · rw [if_neg hname, if_neg hname]
      exact ih hordered.2 hrest

/-- The entries of a table under some names, in the order of the names. -/
def select (table : Table α) (names : List Text) : List (Text × α) :=
  names.filterMap fun name ↦ (table.get? name).map (name, ·)

theorem select_keys (table : Table α) : table.select table.keys = table.entries := by
  rw [select, keys, List.filterMap_map]
  refine (List.filterMap_congr fun entry hmem ↦ ?_).trans List.filterMap_some
  rw [Function.comp_apply, get?_of_mem hmem, Option.map_some]

theorem perm_select {table : Table α} {names : List Text} (h : names.Perm table.keys) :
    (table.select names).Perm table.entries :=
  (h.filterMap _).trans (.of_eq table.select_keys)

theorem get?_mapWithKey (table : Table α) (f : Text → α → β) (name : Text) :
    (table.mapWithKey f).get? name = (table.get? name).map (f name) := by
  obtain ⟨entries, hordered⟩ := table
  simp only [get?, mapWithKey]
  induction entries with
  | nil => rfl
  | cons entry rest ih =>
    rw [List.map_cons, lookup_cons_eq, lookup_cons_eq, ih (List.pairwise_cons.1 hordered).2]
    by_cases hname : name = entry.1 <;> simp [hname]

theorem lookup_place {name : Text} {entries : List (Text × α)}
    (hfresh : name ∉ entries.map Prod.fst) (value : α) (other : Text) :
    (place name value entries).lookup other =
      if other = name then some value else entries.lookup other := by
  induction entries with
  | nil => exact lookup_cons_eq other (name, value) []
  | cons entry rest ih =>
    rw [List.map_cons, List.mem_cons, not_or] at hfresh
    rw [place]
    split
    · rw [lookup_cons_eq, lookup_cons_eq, ih hfresh.2]
      by_cases hentry : other = entry.1
      · simp [hentry, Ne.symm hfresh.1]
      · rw [if_neg hentry, if_neg hentry]
    · exact lookup_cons_eq other (name, value) (entry :: rest)

/-- A fresh name can be defined, and then it holds its value while all other names keep theirs. -/
theorem exists_define {table : Table α} {name : Text} (hfresh : table.get? name = none)
    (value : α) :
    ∃ result, table.define name value = .ok result ∧
      ∀ other, result.get? other = if other = name then some value else table.get? other := by
  unfold define
  split
  · next held hheld =>
    rw [hfresh] at hheld
    cases hheld
  · exact ⟨_, rfl, lookup_place (lookup_eq_none.1 hfresh) value⟩

end Sequencer.Table
