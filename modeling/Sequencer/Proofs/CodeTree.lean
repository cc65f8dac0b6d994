import Mathlib
import Sequencer.Machine.Decoded
import Sequencer.Proofs.Bits
import Sequencer.Proofs.Except

/-!
# Codes in a tree

What a code tree decodes is described by the walks through it. Insertion adds just the walks that
begin with the new code and keeps all others, so the tree of a table leads from the code of each
format to its operation, and to an operation by no other way.
-/

namespace Sequencer

namespace Format

theorem op_format (op : MachineOp) : op.format.op = op := by
  cases op <;> rfl

theorem mem_standard (op : MachineOp) : op.format ∈ standard := by
  apply List.mem_map_of_mem
  cases op <;> decide

end Format

namespace CodeTree

open Machine

theorem walk_nil_of_node (zero one : CodeTree) : (node zero one).walk [] = none := rfl

theorem walk_node (zero one : CodeTree) (bit : Bool) (bits : List Bool) :
    (node zero one).walk (bit :: bits) = (if bit then one else zero).walk bits := rfl

theorem walk_empty (bits : List Bool) : empty.walk bits = none := by
  cases bits <;> rfl

/-- Below the root, a tree without an operation at its root is walked like its branches. -/
theorem walk_cons {tree : CodeTree} (hleaf : ∀ op, tree ≠ leaf op) (bit : Bool)
    (bits : List Bool) :
    tree.walk (bit :: bits) = (if bit then tree.one else tree.zero).walk bits := by
  cases tree with
  | empty => cases bit <;> simp [zero, one, walk_empty]
  | leaf op => exact absurd rfl (hleaf op)
  | node zero one => rfl

theorem walk_nil {tree : CodeTree} (hleaf : ∀ op, tree ≠ leaf op) : tree.walk [] = none := by
  cases tree with
  | empty => rfl
  | leaf op => exact absurd rfl (hleaf op)
  | node zero one => rfl

/-- A tree without an operation at its root takes a code into one of its branches. -/
theorem insert_cons_eq {tree : CodeTree} (hleaf : ∀ other, tree ≠ leaf other) (op : MachineOp)
    (c : Char) (code : Text) :
    tree.insert op (c :: code) =
      if c = '0' then (tree.zero.insert op code).map (node · tree.one)
      else if c = '1' then (tree.one.insert op code).map (node tree.zero ·)
      else .error .notBits := by
  have hmap (branch : Except CodeFault CodeTree) (f : CodeTree → CodeTree) :
      (do return f (← branch)) = branch.map f := by
    cases branch <;> rfl
  simp only [← hmap]
  cases tree with
  | empty => rw [insert]; simp
  | leaf other => exact absurd rfl (hleaf other)
  | node zero one => rw [insert]; simp

/-- What an insertion that succeeds does at the root. -/
theorem insert_cons {op : MachineOp} {tree grown : CodeTree} {c : Char} {code : Text}
    (h : tree.insert op (c :: code) = .ok grown) :
    (∀ other, tree ≠ leaf other) ∧
      ((c = '0' ∧ ∃ zero, tree.zero.insert op code = .ok zero ∧ grown = node zero tree.one) ∨
        (c = '1' ∧ ∃ one, tree.one.insert op code = .ok one ∧ grown = node tree.zero one)) := by
  have hleaf : ∀ other, tree ≠ leaf other := by
    rintro other rfl
    simp [insert] at h
  refine ⟨hleaf, ?_⟩
  rw [insert_cons_eq hleaf] at h
  split at h
  · next hzero =>
    obtain ⟨zero, hinsert, hgrown⟩ := Except.map_eq_ok_iff.1 h
    exact .inl ⟨hzero, zero, hinsert, hgrown.symm⟩
  · split at h
    · next hone =>
      obtain ⟨one, hinsert, hgrown⟩ := Except.map_eq_ok_iff.1 h
      exact .inr ⟨hone, one, hinsert, hgrown.symm⟩
    · cases h

/-- Insertion adds the walks that begin with the new code, and no others. -/
theorem walk_insert {op : MachineOp} {tree grown : CodeTree} {code : Text}
    (h : tree.insert op code = .ok grown) (bits : List Bool) (found : MachineOp)
    (rest : List Bool) :
    grown.walk bits = some (found, rest) ↔
      (found = op ∧ bits = digitBits code ++ rest) ∨ tree.walk bits = some (found, rest) := by
  induction code generalizing tree grown bits with
  | nil =>
    cases tree with
    | leaf other => simp [insert] at h
    | node zero one => simp [insert] at h
    | empty =>
      simp only [insert, Except.ok.injEq] at h
      subst h
      simp [walk, digitBits, walk_empty, eq_comm]
  | cons c code ih =>
    obtain ⟨hleaf, ⟨hc, zero, hzero, rfl⟩ | ⟨hc, one, hone, rfl⟩⟩ := insert_cons h
    all_goals
      subst hc
      obtain _ | ⟨bit, bits⟩ := bits
      · simp [walk_nil hleaf, walk_nil_of_node, digitBits]
    · rw [walk_node, walk_cons hleaf]
      cases bit with
      | false => simpa [digitBits] using ih hzero bits
      | true => simp [digitBits]
    · rw [walk_node, walk_cons hleaf]
      cases bit with
      | false => simp [digitBits]
      | true => simpa [digitBits] using ih hone bits

/-- A format is taken into a tree when it is word-sized and its code, which may not be empty, can be
inserted. -/
theorem insertFormat_eq_ok_iff {tree grown : CodeTree} {format : Format} :
    tree.insertFormat format = .ok grown ↔
      format.width = wordBits ∧ format.code ≠ [] ∧
        tree.insert format.op format.code = .ok grown := by
  unfold insertFormat
  by_cases hwidth : format.width = wordBits
  · rw [if_neg (not_not.2 hwidth)]
    cases hcode : format.code with
    | nil => simp [insertCode]
    | cons c code =>
      simp only [insertCode, hwidth, ne_eq, reduceCtorEq, not_false_eq_true, true_and]
      split
      · next h => simp [h]
      · next h => simp [h]
      · next h => simp [h]
  · simp [hwidth]

/-- A tree built from a table is walked by the codes of the table, on top of what it held before. -/
theorem walk_foldlM {formats : List Format} {tree grown : CodeTree}
    (h : formats.foldlM insertFormat tree = .ok grown) (bits : List Bool) (found : MachineOp)
    (rest : List Bool) :
    grown.walk bits = some (found, rest) ↔
      (∃ format ∈ formats, format.op = found ∧ bits = digitBits format.code ++ rest) ∨
        tree.walk bits = some (found, rest) := by
  induction formats generalizing tree with
  | nil =>
    have hgrown : tree = grown := by simpa [pure, Except.pure] using h
    simp [hgrown]
  | cons format formats ih =>
    rw [List.foldlM_cons] at h
    obtain ⟨next, hinsert, hnext⟩ := Except.bind_eq_ok_iff.1 h
    rw [ih hnext, walk_insert (insertFormat_eq_ok_iff.1 hinsert).2.2]
    simp only [List.mem_cons, exists_eq_or_imp, eq_comm (a := found)]
    rw [or_left_comm, or_assoc]

theorem walk_ofFormats {formats : List Format} {tree : CodeTree} (h : ofFormats formats = .ok tree)
    (bits : List Bool) (found : MachineOp) (rest : List Bool) :
    tree.walk bits = some (found, rest) ↔
      ∃ format ∈ formats, format.op = found ∧ bits = digitBits format.code ++ rest := by
  rw [walk_foldlM h, walk_empty]
  simp

theorem decode_eq_none_of_wide (tree : CodeTree) {word : Word}
    (h : Bits.capacity wordBits ≤ word.toNat) : tree.decode word = none := by
  unfold decode
  rw [if_pos h]

/-- A word of 15 bits decodes just if its bits lead to an operation. -/
theorem decode_eq_none_iff {tree : CodeTree} {word : Word}
    (h : word.toNat < Bits.capacity wordBits) :
    tree.decode word = none ↔ tree.walk (Bits.ofNat wordBits word.toNat) = none := by
  unfold decode
  rw [if_neg (Nat.not_le.2 h)]
  cases tree.walk (Bits.ofNat wordBits word.toNat) with
  | none => exact iff_of_true rfl rfl
  | some found => exact iff_of_false (Option.some_ne_none _) (Option.some_ne_none _)

/-- A decoded word is one whose bits lead through the tree to its operation. -/
theorem exists_walk_of_decode {tree : CodeTree} {word : Word} {d : Decoded}
    (h : tree.decode word = some d) :
    word.toNat < Bits.capacity wordBits ∧
      ∃ rest, tree.walk (Bits.ofNat wordBits word.toNat) = some (d.op, rest) := by
  by_cases hword : Bits.capacity wordBits ≤ word.toNat
  · rw [tree.decode_eq_none_of_wide hword] at h
    cases h
  · refine ⟨Nat.not_le.1 hword, ?_⟩
    unfold decode at h
    rw [if_neg hword] at h
    cases hwalk : tree.walk (Bits.ofNat wordBits word.toNat) with
    | none => simp [hwalk] at h
    | some found =>
      rw [hwalk] at h
      obtain rfl := Option.some.inj h
      exact ⟨found.2, rfl⟩

theorem ofFormats_standard : ofFormats Format.standard = .ok standard := by
  have h : (ofFormats Format.standard).toOption.isSome := by decide +kernel
  rw [standard]
  cases hformats : ofFormats Format.standard with
  | error fault => simp [hformats, Except.toOption] at h
  | ok tree => rfl

theorem walk_standard (bits : List Bool) (op : MachineOp) (rest : List Bool) :
    standard.walk bits = some (op, rest) ↔ bits = digitBits op.format.code ++ rest := by
  rw [walk_ofFormats ofFormats_standard]
  constructor
  · rintro ⟨format, hformat, hfound, hbits⟩
    obtain ⟨other, -, rfl⟩ := List.mem_map.1 hformat
    rw [Format.op_format] at hfound
    rw [← hfound, hbits]
  · intro hbits
    exact ⟨op.format, Format.mem_standard op, Format.op_format op, hbits⟩

end CodeTree

end Sequencer
