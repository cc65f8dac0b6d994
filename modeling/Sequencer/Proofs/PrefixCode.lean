import Mathlib
import Sequencer.Proofs.CodeTree

/-!
# Tables that have a code tree

Two codes overlap when one of them is the beginning of the other. A code can be inserted into a tree
just when it is a string of bits and overlaps none of the codes that the tree holds; that a code
which ends within the tree overlaps one of them rests on every branch leading to an operation. Along
a table this says that its formats are word-sized, and that no code is the beginning of another, in
whatever order the formats stand.
-/

namespace Sequencer

open Machine

/-- A text made of the digits zero and one. -/
def Text.IsBits (text : Text) : Prop := ∀ c ∈ text, c = '0' ∨ c = '1'

namespace Machine

/-- The digits of a string of bits are known from the bits. -/
theorem map_digitBits {text : Text} (h : text.IsBits) :
    (digitBits text).map (fun bit ↦ if bit then '1' else '0') = text := by
  rw [digitBits, List.map_map]
  refine (List.map_congr_left fun c hmem ↦ ?_).trans (List.map_id _)
  obtain rfl | rfl := h c hmem <;> rfl

theorem digitBits_cons (c : Char) (text : Text) :
    digitBits (c :: text) = (c == '1') :: digitBits text := rfl

theorem digitBits_prefix_iff {a b : Text} (ha : a.IsBits) (hb : b.IsBits) :
    digitBits a <+: digitBits b ↔ a <+: b := by
  constructor
  · intro hcodes
    rw [← map_digitBits ha, ← map_digitBits hb]
    exact hcodes.map _
  · intro hcodes
    exact hcodes.map _

end Machine

namespace CodeTree

/-! ## Codes that a tree holds -/

/-- The bits end at an operation of the tree. -/
def Holds (tree : CodeTree) (bits : List Bool) : Prop := ∃ op, tree.walk bits = some (op, [])

/-- One of two codes is the beginning of the other. -/
def Overlaps (a b : List Bool) : Prop := a <+: b ∨ b <+: a

theorem overlaps_nil (bits : List Bool) : Overlaps bits [] := .inr bits.nil_prefix

theorem nil_overlaps (bits : List Bool) : Overlaps [] bits := .inl bits.nil_prefix

theorem overlaps_cons (a b : Bool) (front back : List Bool) :
    Overlaps (a :: front) (b :: back) ↔ a = b ∧ Overlaps front back := by
  unfold Overlaps
  rw [List.cons_prefix_cons, List.cons_prefix_cons, eq_comm (a := b), and_or_left]

/-- Every branch of the tree leads to an operation. -/
def IsPruned : CodeTree → Prop
  | node zero one => zero.IsPruned ∧ one.IsPruned ∧ (zero ≠ empty ∨ one ≠ empty)
  | _ => True

theorem IsPruned.zero {tree : CodeTree} (h : tree.IsPruned) : tree.zero.IsPruned := by
  cases tree with
  | node zero one => exact h.1
  | empty => trivial
  | leaf op => trivial

theorem IsPruned.one {tree : CodeTree} (h : tree.IsPruned) : tree.one.IsPruned := by
  cases tree with
  | node zero one => exact h.2.1
  | empty => trivial
  | leaf op => trivial

theorem IsPruned.exists_holds {tree : CodeTree} (h : tree.IsPruned) (hne : tree ≠ empty) :
    ∃ bits, tree.Holds bits := by
  induction tree with
  | empty => exact absurd rfl hne
  | leaf op => exact ⟨[], op, rfl⟩
  | node zero one ihzero ihone =>
    obtain ⟨hzero, hone, hzero' | hone'⟩ := h
    · obtain ⟨bits, op, hwalk⟩ := ihzero hzero hzero'
      exact ⟨false :: bits, op, hwalk⟩
    · obtain ⟨bits, op, hwalk⟩ := ihone hone hone'
      exact ⟨true :: bits, op, hwalk⟩

/-- An insertion leaves no branch without an operation. -/
theorem IsPruned.insert {op : MachineOp} {tree grown : CodeTree} {code : Text}
    (hpruned : tree.IsPruned) (h : tree.insert op code = .ok grown) :
    grown.IsPruned ∧ grown ≠ empty := by
  induction code generalizing tree grown with
  | nil =>
    cases tree with
    | leaf other => simp [CodeTree.insert] at h
    | node zero one => simp [CodeTree.insert] at h
    | empty =>
      simp only [CodeTree.insert, Except.ok.injEq] at h
      subst h
      exact ⟨trivial, by simp⟩
  | cons c code ih =>
    obtain ⟨-, ⟨-, zero, hzero, rfl⟩ | ⟨-, one, hone, rfl⟩⟩ := insert_cons h
    · obtain ⟨hgrown, hne⟩ := ih hpruned.zero hzero
      exact ⟨⟨hgrown, hpruned.one, .inl hne⟩, by simp⟩
    · obtain ⟨hgrown, hne⟩ := ih hpruned.one hone
      exact ⟨⟨hpruned.zero, hgrown, .inr hne⟩, by simp⟩

/-- Insertion adds the new code to those that the tree holds. -/
theorem holds_insert {op : MachineOp} {tree grown : CodeTree} {code : Text}
    (h : tree.insert op code = .ok grown) (bits : List Bool) :
    grown.Holds bits ↔ bits = digitBits code ∨ tree.Holds bits := by
  unfold Holds
  simp only [walk_insert h, List.append_nil, exists_or, exists_eq_left]

/-! ## Insertion -/

/-- Below the root, a code overlaps what a tree holds just if its tail overlaps what the branch of
its first bit holds. -/
theorem forall_holds_cons {tree : CodeTree} (hleaf : ∀ op, tree ≠ leaf op) (bit : Bool)
    (bits : List Bool) :
    (∀ held, tree.Holds held → ¬ Overlaps held (bit :: bits)) ↔
      ∀ held, (if bit then tree.one else tree.zero).Holds held → ¬ Overlaps held bits := by
  constructor
  · intro h held hheld hoverlap
    obtain ⟨op, hwalk⟩ := hheld
    apply h (bit :: held)
    · exact ⟨op, by rw [walk_cons hleaf, hwalk]⟩
    · exact (overlaps_cons bit bit held bits).2 ⟨rfl, hoverlap⟩
  · rintro h (_ | ⟨other, held⟩) ⟨op, hwalk⟩ hoverlap
    · rw [walk_nil hleaf] at hwalk
      cases hwalk
    · obtain ⟨rfl, htail⟩ := (overlaps_cons _ _ _ _).1 hoverlap
      rw [walk_cons hleaf] at hwalk
      exact h held ⟨op, hwalk⟩ htail

/-- A code can be inserted just when it is a string of bits and overlaps no code of the tree. -/
theorem exists_insert_iff {tree : CodeTree} (hpruned : tree.IsPruned) (op : MachineOp)
    (code : Text) :
    (∃ grown, tree.insert op code = .ok grown) ↔
      code.IsBits ∧ ∀ held, tree.Holds held → ¬ Overlaps held (digitBits code) := by
  induction code generalizing tree with
  | nil =>
    -- where the code ends there has to be nothing, since any code of the tree would go on from it
    cases tree with
    | empty => simp [insert, Text.IsBits, Holds, walk_empty]
    | leaf other =>
      have hheld : (leaf other).Holds [] := ⟨other, rfl⟩
      simp only [insert, reduceCtorEq, exists_false, false_iff, not_and]
      intro _ h
      exact h [] hheld (overlaps_nil _)
    | node zero one =>
      obtain ⟨bits, hheld⟩ := hpruned.exists_holds (by simp)
      simp only [insert, reduceCtorEq, exists_false, false_iff, not_and]
      intro _ h
      exact h bits hheld (overlaps_nil _)
  | cons c code ih =>
    by_cases hleaf : ∃ other, tree = leaf other
    · obtain ⟨other, rfl⟩ := hleaf
      have hheld : (leaf other).Holds [] := ⟨other, rfl⟩
      simp only [insert, reduceCtorEq, exists_false, false_iff, not_and]
      intro _ h
      exact h [] hheld (nil_overlaps _)
    · replace hleaf : ∀ other, tree ≠ leaf other := not_exists.1 hleaf
      rw [insert_cons_eq hleaf]
      have hbits : Text.IsBits (c :: code) ↔ (c = '0' ∨ c = '1') ∧ Text.IsBits code :=
        List.forall_mem_cons
      rw [hbits, digitBits_cons, forall_holds_cons hleaf]
      by_cases hzero : c = '0'
      · subst hzero
        simpa [Except.map_eq_ok_iff] using ih hpruned.zero
      · by_cases hone : c = '1'
        · subst hone
          simpa [Except.map_eq_ok_iff] using ih hpruned.one
        · simp [hzero, hone]

end CodeTree

/-! ## Tables -/

/-- A format that has a place in some tree: it fills a word, and its code is a string of bits that
is not empty. -/
structure Format.IsPlaceable (format : Format) : Prop where
  width_eq : format.width = wordBits
  code_ne_nil : format.code ≠ []
  isBits_code : Text.IsBits format.code

/-- The code of the format stands in front of the bits of the word. -/
def Format.Leads (format : Format) (word : Word) : Prop :=
  digitBits format.code <+: Bits.ofNat wordBits word.toNat

namespace CodeTree

theorem exists_insertFormat_iff {tree : CodeTree} (hpruned : tree.IsPruned) (format : Format) :
    (∃ grown, tree.insertFormat format = .ok grown) ↔
      format.IsPlaceable ∧ ∀ held, tree.Holds held → ¬ Overlaps held (digitBits format.code) := by
  simp only [insertFormat_eq_ok_iff, exists_and_left, exists_insert_iff hpruned]
  constructor
  · rintro ⟨hwidth, hne, hbits, hfree⟩
    exact ⟨⟨hwidth, hne, hbits⟩, hfree⟩
  · rintro ⟨⟨hwidth, hne, hbits⟩, hfree⟩
    exact ⟨hwidth, hne, hbits, hfree⟩

/-- A table can be added to a tree just when each of its formats has a place, and no code overlaps
another one of the table or one of the tree. -/
theorem exists_foldlM_iff {tree : CodeTree} (hpruned : tree.IsPruned) (formats : List Format) :
    (∃ grown, formats.foldlM insertFormat tree = .ok grown) ↔
      (∀ format ∈ formats, format.IsPlaceable ∧
        ∀ held, tree.Holds held → ¬ Overlaps held (digitBits format.code)) ∧
      formats.Pairwise fun a b ↦ ¬ Overlaps (digitBits a.code) (digitBits b.code) := by
  induction formats generalizing tree with
  | nil => simp [pure, Except.pure]
  | cons format formats ih =>
    simp only [List.foldlM_cons, Except.bind_eq_ok_iff, List.forall_mem_cons, List.pairwise_cons]
    constructor
    · rintro ⟨grown, next, hinsert, hrest⟩
      have hcode := (insertFormat_eq_ok_iff.1 hinsert).2.2
      obtain ⟨hall, hpairs⟩ := (ih (hpruned.insert hcode).1).1 ⟨grown, hrest⟩
      refine ⟨⟨(exists_insertFormat_iff hpruned format).1 ⟨next, hinsert⟩, ?_⟩, ?_, hpairs⟩
      · intro other hmem
        refine ⟨(hall other hmem).1, fun held hheld ↦ ?_⟩
        exact (hall other hmem).2 held ((holds_insert hcode held).2 (.inr hheld))
      · intro other hmem
        exact (hall other hmem).2 _ ((holds_insert hcode _).2 (.inl rfl))
    · rintro ⟨⟨hformat, hall⟩, hfirst, hpairs⟩
      obtain ⟨next, hinsert⟩ := (exists_insertFormat_iff hpruned format).2 hformat
      have hcode := (insertFormat_eq_ok_iff.1 hinsert).2.2
      obtain ⟨grown, hrest⟩ : ∃ grown, formats.foldlM insertFormat next = .ok grown := by
        rw [ih (hpruned.insert hcode).1]
        refine ⟨fun other hmem ↦ ⟨(hall other hmem).1, fun held hheld ↦ ?_⟩, hpairs⟩
        obtain rfl | hheld := (holds_insert hcode held).1 hheld
        · exact hfirst other hmem
        · exact (hall other hmem).2 held hheld
      exact ⟨grown, next, hinsert, hrest⟩

/-- Codes that overlap nowhere in a table are codes of which none is the beginning of another,
whichever stands first. -/
theorem pairwise_not_overlaps_iff {formats : List Format}
    (hbits : ∀ format ∈ formats, Text.IsBits format.code) :
    (formats.Pairwise fun a b ↦ ¬ Overlaps (digitBits a.code) (digitBits b.code)) ↔
      ∀ i j (hi : i < formats.length) (hj : j < formats.length), i ≠ j →
        ¬ formats[i].code <+: formats[j].code := by
  have hcodes (i j : ℕ) (hi : i < formats.length) (hj : j < formats.length) :
      digitBits formats[i].code <+: digitBits formats[j].code ↔
        formats[i].code <+: formats[j].code :=
    digitBits_prefix_iff (hbits _ (List.getElem_mem hi)) (hbits _ (List.getElem_mem hj))
  rw [List.pairwise_iff_getElem]
  constructor
  · intro h i j hi hj hne hcode
    rw [← hcodes i j hi hj] at hcode
    rcases Nat.lt_or_gt_of_ne hne with hlt | hlt
    · exact h i j hi hj hlt (.inl hcode)
    · exact h j i hj hi hlt (.inr hcode)
  · intro h i j hi hj hlt
    unfold Overlaps
    rw [hcodes i j hi hj, hcodes j i hj hi, not_or]
    exact ⟨h i j hi hj hlt.ne, h j i hj hi hlt.ne'⟩

/-- A table has a code tree just when each of its formats has a place and no code is the beginning
of another. -/
theorem exists_ofFormats_iff (formats : List Format) :
    (∃ tree, ofFormats formats = .ok tree) ↔
      (∀ format ∈ formats, format.IsPlaceable) ∧
      ∀ i j (hi : i < formats.length) (hj : j < formats.length), i ≠ j →
        ¬ formats[i].code <+: formats[j].code := by
  have hempty (bits : List Bool) : ¬ empty.Holds bits := by
    rintro ⟨op, hwalk⟩
    rw [walk_empty] at hwalk
    cases hwalk
  have hpruned : empty.IsPruned := trivial
  unfold ofFormats
  rw [exists_foldlM_iff hpruned]
  simp only [hempty, false_imp_iff, implies_true, and_true]
  apply and_congr_right
  intro hplaceable
  exact pairwise_not_overlaps_iff fun format hmem ↦ (hplaceable format hmem).isBits_code

section

variable {formats : List Format} {tree : CodeTree} {word : Word}

theorem walk_of_leads (h : ofFormats formats = .ok tree) {format : Format} (hmem : format ∈ formats)
    (hleads : format.Leads word) :
    (tree.walk (Bits.ofNat wordBits word.toNat)).map Prod.fst = some format.op := by
  obtain ⟨rest, hbits⟩ := hleads
  rw [(walk_ofFormats h _ format.op rest).2 ⟨format, hmem, rfl, hbits.symm⟩]
  rfl

theorem isSome_walk_iff (h : ofFormats formats = .ok tree) :
    (tree.walk (Bits.ofNat wordBits word.toNat)).isSome = true ↔
      ∃ format ∈ formats, format.Leads word := by
  constructor
  · intro hsome
    obtain ⟨⟨op, rest⟩, hwalk⟩ := Option.isSome_iff_exists.1 hsome
    obtain ⟨format, hmem, -, hbits⟩ := (walk_ofFormats h _ op rest).1 hwalk
    exact ⟨format, hmem, rest, hbits.symm⟩
  · rintro ⟨format, hmem, hleads⟩
    rw [← Option.isSome_map, walk_of_leads h hmem hleads]
    rfl

/-- At most one code of a table stands in front of a word. -/
theorem eq_of_leads (h : ofFormats formats = .ok tree) {i j : ℕ} (hi : i < formats.length)
    (hj : j < formats.length) (hleads : formats[i].Leads word) (hleads' : formats[j].Leads word) :
    j = i := by
  obtain ⟨hplaceable, hfree⟩ := (exists_ofFormats_iff formats).1 ⟨tree, h⟩
  have hbits (k : ℕ) (hk : k < formats.length) : Text.IsBits formats[k].code :=
    (hplaceable _ (List.getElem_mem hk)).isBits_code
  by_contra hne
  rcases List.prefix_or_prefix_of_prefix hleads hleads' with hcode | hcode
  · exact hfree i j hi hj (Ne.symm hne) ((digitBits_prefix_iff (hbits i hi) (hbits j hj)).1 hcode)
  · exact hfree j i hj hi hne ((digitBits_prefix_iff (hbits j hj) (hbits i hi)).1 hcode)

end

/-- A table of formats has a code tree just when its formats are word-sized, its codes are strings
of bits that are not empty, and no code equals or begins another one. The tree then leads a word to
an operation just when the code of some format stands in front of it; there is one such format, and
the operation is its own. Just these words are decoded, to that operation, and words of more than 15
bits never are. -/
theorem ofFormats_prefixFree (formats : List Format) :
    ((∃ tree, ofFormats formats = .ok tree) ↔
      (∀ format ∈ formats, format.width = 15 ∧ format.code ≠ [] ∧
        ∀ c ∈ format.code, c = '0' ∨ c = '1') ∧
      ∀ i j (hi : i < formats.length) (hj : j < formats.length), i ≠ j →
        ¬ formats[i].code <+: formats[j].code) ∧
    ∀ tree, ofFormats formats = .ok tree →
      (∀ word : Word, word.toNat < 2 ^ 15 →
        ((tree.walk (Bits.ofNat 15 word.toNat)).isSome = true ↔
          ∃ format ∈ formats, format.Leads word) ∧
        (∀ i (hi : i < formats.length), formats[i].Leads word →
          (∀ j (hj : j < formats.length), formats[j].Leads word → j = i) ∧
          (tree.walk (Bits.ofNat 15 word.toNat)).map Prod.fst = some formats[i].op) ∧
        (∀ d, tree.decode word = some d →
          (tree.walk (Bits.ofNat 15 word.toNat)).map Prod.fst = some d.op) ∧
        (tree.decode word = none ↔ tree.walk (Bits.ofNat 15 word.toNat) = none)) ∧
      ∀ word : Word, 2 ^ 15 ≤ word.toNat → tree.decode word = none := by
  constructor
  · rw [exists_ofFormats_iff]
    apply and_congr_left
    intro _
    constructor
    · intro h format hmem
      exact ⟨(h format hmem).width_eq, (h format hmem).code_ne_nil, (h format hmem).isBits_code⟩
    · intro h format hmem
      obtain ⟨hwidth, hne, hbits⟩ := h format hmem
      exact ⟨hwidth, hne, hbits⟩
  · intro tree h
    refine ⟨fun word hword ↦ ⟨isSome_walk_iff h, fun i hi hleads ↦ ⟨?_, ?_⟩, fun d hd ↦ ?_,
      decode_eq_none_iff hword⟩, ?_⟩
    · intro j hj hleads'
      exact eq_of_leads h hi hj hleads hleads'
    · exact walk_of_leads h (List.getElem_mem hi) hleads
    · obtain ⟨-, rest, hwalk⟩ := exists_walk_of_decode hd
      exact congrArg (Option.map Prod.fst) hwalk
    · intro word hwide
      exact tree.decode_eq_none_of_wide hwide

end CodeTree

end Sequencer
