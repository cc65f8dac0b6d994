import Mathlib
import Sequencer.Proofs.Evaluation
import Sequencer.Proofs.Reading
import Sequencer.Proofs.Validation

/-!
# Operands under growing tables

An expression that has a value keeps it when more names are known. So a command without faults is
resolved to the same operands when constants, symbols and commands come to those there are.
-/

namespace Sequencer

namespace Expression

variable {lookup more : Text → Option ℤ}

theorem Tree.fold_refines (h : ∀ name value, lookup name = some value → more name = some value)
    (tree : Tree) : (tree.fold (integers lookup)).Refines (tree.fold (integers more)) := by
  induction tree with
  | number n => exact .refl _
  | name text =>
    intro value hvalue
    simp only [fold, integers] at hvalue ⊢
    split at hvalue
    · next known hknown =>
      rw [h text known hknown]
      exact hvalue
    · cases hvalue
  | negate tree ih => exact ih.bind fun _ ↦ .refl _
  | sum operator left right ihl ihr => exact ihl.bind fun _ ↦ ihr.bind fun _ ↦ .refl _
  | product operator left right ihl ihr => exact ihl.bind fun _ ↦ ihr.bind fun _ ↦ .refl _

/-- More names take no value from an expression. -/
theorem evaluate_refines (h : ∀ name value, lookup name = some value → more name = some value)
    (source : Text) : (evaluate lookup source).Refines (evaluate more source) := by
  intro value hvalue
  simp only [evaluate_eq_ok_iff_value, value_eq_ok_iff] at hvalue ⊢
  obtain ⟨ts, htokens, tree, hderives, hfold⟩ := hvalue
  exact ⟨ts, htokens, tree, hderives, tree.fold_refines h value hfold⟩

end Expression

/-! ## Operands -/

namespace Operand

variable {constants more : Constants} (h : constants.values.Extends more.values)

include h

theorem evaluate_of_extends {source : Text} {value : ℤ}
    (hvalue : constants.evaluate source = .ok value) : more.evaluate source = .ok value :=
  Expression.evaluate_refines (fun name value ↦ h (Text.upper name) value) source value hvalue

theorem Yields.mono {bits : ℕ} {source : Text} {value : UInt16}
    (hyields : Yields constants bits source value) : Yields more bits source value :=
  ⟨evaluate_of_extends h hyields.1, hyields.2⟩

theorem Names.mono {destination : Text} {kind : RegisterClass} {index : Option UInt8}
    (hnames : Names constants destination kind index) : Names more destination kind index := by
  cases hnames with
  | general name_eq index_of evaluate_eq index_le =>
    exact .general name_eq index_of (evaluate_of_extends h evaluate_eq) index_le
  | counter base_mem name_eq index_zero =>
    refine .counter base_mem name_eq (index_zero.imp_right ?_)
    rintro ⟨expression, index_of, hzero⟩
    exact ⟨expression, index_of, evaluate_of_extends h hzero⟩

end Operand

namespace Command

variable {constants more : Constants} {symbols others : Symbols} {count larger : ℕ}
  {command : Command} (hconstants : constants.values.Extends more.values)
  (hsymbols : ∀ name symbol, symbols.get? name = some symbol → symbol.commandIndex < count →
    others.get? name = some symbol) (hcount : count ≤ larger)

include hconstants hsymbols hcount

theorem Accepts.mono {operands : List Operand}
    (h : command.Accepts constants symbols count operands) :
    command.Accepts more others larger operands := by
  cases h with
  | load opcode_eq raw_eq names yields =>
    exact .load opcode_eq raw_eq (names.mono hconstants) (yields.mono hconstants)
  | loadCounter opcode_eq raw_eq yields =>
    exact .loadCounter opcode_eq raw_eq (yields.mono hconstants)
  | loadNested opcode_eq raw_eq yields =>
    exact .loadNested opcode_eq raw_eq (yields.mono hconstants)
  | branch family_eq raw_eq get_eq index_lt =>
    -- a target that exists is still there when symbols and commands are added
    exact .branch family_eq raw_eq (hsymbols _ _ get_eq index_lt) (index_lt.trans_le hcount)
  | immediate family_eq raw_eq yields =>
    exact .immediate family_eq raw_eq (yields.mono hconstants)
  | moveFrom opcode_eq raw_eq encloses yields =>
    exact .moveFrom opcode_eq raw_eq encloses (yields.mono hconstants)
  | pause opcode_eq raw_eq => exact .pause opcode_eq raw_eq
  | longPause opcode_eq raw_eq yields =>
    exact .longPause opcode_eq raw_eq (yields.mono hconstants)
  | bare family_eq raw_eq => exact .bare family_eq raw_eq

/-- A command without faults is resolved to the same operands when the tables grow. -/
theorem resolve_of_faults_eq_nil (h : (command.resolve constants symbols count).faults = []) :
    command.resolve more others larger = command.resolve constants symbols count := by
  obtain ⟨operands, haccepts⟩ := exists_accepts_of_faults_eq_nil h
  rw [resolve_of_accepts haccepts,
    resolve_of_accepts (haccepts.mono hconstants hsymbols hcount)]

end Command

end Sequencer
