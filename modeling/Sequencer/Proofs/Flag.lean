import Mathlib
import Sequencer.Flag

/-!
# Sets of flags

A set of flags is determined by the flags it contains. The letters of a flag field that are set give
back the flags the field was written with, and the field is given back by those flags as long as no
two of its letters stand for one flag.
-/

namespace Sequencer.FlagSet

theorem ext_contains {a b : FlagSet} (h : ∀ flag, a.contains flag = b.contains flag) : a = b := by
  cases a
  cases b
  simp only [FlagSet.mk.injEq]
  exact ⟨h .acquire, h .reserved, h .control, h .synchronise⟩

@[simp]
theorem contains_ofPredicate (holds : Flag → Bool) (flag : Flag) :
    (ofPredicate holds).contains flag = holds flag := by
  cases flag <;> rfl

@[simp]
theorem contains_empty (flag : Flag) : empty.contains flag = false := by
  cases flag <;> rfl

@[simp]
theorem contains_single (held flag : Flag) :
    (single held).contains flag = decide (flag = held) := by
  simp [single]

@[simp]
theorem contains_union (a b : FlagSet) (flag : Flag) :
    (a.union b).contains flag = (a.contains flag || b.contains flag) := by
  simp [union]

@[simp]
theorem contains_inter (a b : FlagSet) (flag : Flag) :
    (a.inter b).contains flag = (a.contains flag && b.contains flag) := by
  simp [inter]

@[simp]
theorem contains_diff (a b : FlagSet) (flag : Flag) :
    (a.diff b).contains flag = (a.contains flag && !b.contains flag) := by
  simp [diff]

theorem contains_foldl_union (sets : List FlagSet) (start : FlagSet) (flag : Flag) :
    (sets.foldl union start).contains flag =
      (start.contains flag || sets.any (·.contains flag)) := by
  induction sets generalizing start with
  | nil => simp
  | cons set rest ih => rw [List.foldl_cons, ih, contains_union, List.any_cons, Bool.or_assoc]

theorem contains_ofLetters (layout : Text) (flag : Flag) :
    (ofLetters layout).contains flag =
      layout.any (fun letter ↦ decide (Flag.ofLetter? letter = some flag)) := by
  rw [ofLetters, contains_foldl_union, contains_empty, Bool.false_or]
  induction layout with
  | nil => rfl
  | cons letter rest ih =>
    rw [List.any_cons, ← ih]
    cases h : Flag.ofLetter? letter with
    | none => simp [h]
    | some held =>
      have hswap : decide (flag = held) = decide (held = flag) := by simp [eq_comm]
      simp [h, hswap]

/-- Reading the set letters of a field that was written with some flags keeps those of them that the
field has a letter for. -/
theorem ofLetters_filter_hasLetter (layout : Text) (flags : FlagSet) :
    ofLetters (layout.filter flags.hasLetter) = flags.inter (ofLetters layout) := by
  refine ext_contains fun flag ↦ ?_
  rw [contains_inter, contains_ofLetters, contains_ofLetters, List.any_filter]
  have hletter (letter : Char) :
      (flags.hasLetter letter && decide (Flag.ofLetter? letter = some flag)) =
        (flags.contains flag && decide (Flag.ofLetter? letter = some flag)) := by
    by_cases h : Flag.ofLetter? letter = some flag
    · simp [hasLetter, h]
    · simp [h]
  simp only [hletter]
  induction layout with
  | nil => simp
  | cons letter rest ih => simp only [List.any_cons, ih, Bool.and_or_distrib_left]

theorem hasLetter_ofLetters {letter : Char} {flag : Flag} (layout : Text)
    (hletter : Flag.ofLetter? letter = some flag) :
    (ofLetters layout).hasLetter letter =
      layout.any (fun other ↦ decide (Flag.ofLetter? other = some flag)) := by
  simp [hasLetter, hletter, contains_ofLetters]

/-- The letters of a layout whose bit is set. -/
def heldLetters (layout : Text) (bits : List Bool) : Text :=
  ((layout.zip bits).filter Prod.snd).map Prod.fst

theorem heldLetters_subset (layout : Text) (bits : List Bool) :
    heldLetters layout bits ⊆ layout := by
  intro letter hmem
  obtain ⟨entry, hentry, rfl⟩ := List.mem_map.1 hmem
  exact (List.of_mem_zip (List.mem_filter.1 hentry).1).1

theorem heldLetters_cons (letter : Char) (layout : Text) (bit : Bool) (bits : List Bool) :
    heldLetters (letter :: layout) (bit :: bits) =
      (if bit then [letter] else []) ++ heldLetters layout bits := by
  cases bit <;> rfl

theorem heldLetters_map_hasLetter (layout : Text) (flags : FlagSet) :
    heldLetters layout (layout.map flags.hasLetter) = layout.filter flags.hasLetter := by
  induction layout with
  | nil => rfl
  | cons letter rest ih =>
    rw [List.map_cons, heldLetters_cons, ih]
    cases h : flags.hasLetter letter <;> simp [h]

/-- The bits of a field can be read off the flags they stand for. -/
theorem map_hasLetter_heldLetters {layout : Text} {bits : List Bool}
    (hlength : bits.length = layout.length)
    (hknown : ∀ letter ∈ layout, Flag.ofLetter? letter ≠ none)
    (hdistinct : (layout.map Flag.ofLetter?).Nodup) :
    layout.map (ofLetters (heldLetters layout bits)).hasLetter = bits := by
  induction layout generalizing bits with
  | nil => exact (List.length_eq_zero_iff.1 hlength).symm
  | cons letter rest ih =>
    obtain _ | ⟨bit, bits⟩ := bits
    · simp at hlength
    simp only [List.map_cons, List.nodup_cons, List.mem_map, not_exists, not_and] at hdistinct
    have hshort : bits.length = rest.length := by simpa using hlength
    have hrest := ih hshort (fun other hmem ↦ hknown other (List.mem_cons_of_mem _ hmem))
      hdistinct.2
    have hother {other : Char} (hmem : other ∈ rest) :
        Flag.ofLetter? other ≠ Flag.ofLetter? letter := hdistinct.1 other hmem
    obtain ⟨flag, hflag⟩ := Option.ne_none_iff_exists'.1 (hknown letter List.mem_cons_self)
    rw [List.map_cons, heldLetters_cons]
    congr 1
    · -- No later letter stands for the flag of this one.
      have hlater : (heldLetters rest bits).any
          (fun other ↦ decide (Flag.ofLetter? other = some flag)) = false := by
        rw [List.any_eq_false]
        intro other hmem
        have hne := hother (heldLetters_subset rest bits hmem)
        rw [hflag] at hne
        simpa using hne
      rw [hasLetter_ofLetters _ hflag, List.any_append, hlater]
      cases bit <;> simp [hflag]
    · rw [← hrest]
      refine List.map_congr_left fun other hmem ↦ ?_
      obtain ⟨held, hheld⟩ :=
        Option.ne_none_iff_exists'.1 (hknown other (List.mem_cons_of_mem _ hmem))
      have hne := hother hmem
      rw [hheld, hflag] at hne
      rw [hasLetter_ofLetters _ hheld, hasLetter_ofLetters _ hheld, hrest, List.any_append]
      cases bit <;> simp [hflag, Ne.symm hne]

theorem ofLetters_cons {letter : Char} {flag : Flag} (h : Flag.ofLetter? letter = some flag)
    (rest : Text) : ofLetters (letter :: rest) = (single flag).union (ofLetters rest) := by
  refine ext_contains fun other ↦ ?_
  rw [contains_union, contains_single, contains_ofLetters, contains_ofLetters, List.any_cons, h]
  congr 1
  simp [eq_comm]

/-- A set of flags is read back from its letters. -/
theorem ofLetters_letters (flags : FlagSet) : ofLetters flags.letters = flags := by
  refine ext_contains fun flag ↦ ?_
  rw [letters, ofLetters_filter_hasLetter, contains_inter]
  have hall : (ofLetters "BSAK".toList).contains flag = true := by
    cases flag <;> rfl
  rw [hall, Bool.and_true]

theorem ofLetter?_ne_none_of_mem_letters {flags : FlagSet} {letter : Char}
    (h : letter ∈ flags.letters) : Flag.ofLetter? letter ≠ none := by
  have hheld : flags.hasLetter letter = true := (List.mem_filter.1 h).2
  intro hnone
  simp [hasLetter, hnone] at hheld

end Sequencer.FlagSet
