import Mathlib
import Sequencer.Draft
import Sequencer.Proofs.Acceptance
import Sequencer.Proofs.Bits
import Sequencer.Proofs.Report

/-!
# Commands that pass validation

A command without faults has operands of the shape its family asks for, each within its bounds. The
second pass succeeds on just those drafts in which no command has a fault, and then it changes
operands and alignments only.
-/

namespace Sequencer

namespace Operand

/-- A general register has an index within bounds, a counter has none. -/
def IndexFits : RegisterClass → Option UInt8 → Prop
  | .general, index => ∃ i, index = some i ∧ i.toNat ≤ Register.maxIndex
  | .counter, index | .nestedCounter, index => index = none

/-- The operands that the family of a command's opcode asks for. -/
inductive Resolved (symbols : Symbols) (count : ℕ) (command : Command) : List Operand → Prop where
  | load {kind : RegisterClass} {index : Option UInt8} {value : UInt16}
      (family_eq : command.opcode.family = .registerLoad)
      (implied : ∀ implied, impliedRegister? command.opcode = some implied → kind = implied)
      (index_fits : IndexFits kind index)
      (value_lt : value.toNat < Bits.capacity kind.sourceBits) :
      Resolved symbols count command [.register kind index, .constant value]
  | branch {name : Text} {symbol : Symbol} (family_eq : command.opcode.family = .branch)
      (raw_eq : command.rawOperands = [name]) (get_eq : symbols.get? name = some symbol)
      (index_lt : symbol.commandIndex < count) : Resolved symbols count command [.address name]
  | immediate {value : UInt16}
      (family_eq : command.opcode.family = .singleImmediate ∨
        command.opcode.family = .optionalImmediate)
      (value_lt : value.toNat < Bits.capacity command.opcode.operandBits) :
      Resolved symbols count command [.constant value]
  | bare (family_eq : command.opcode.family = .zeroOperand) : Resolved symbols count command []

theorem Names.indexFits {constants : Constants} {destination : Text} {kind : RegisterClass}
    {index : Option UInt8} (h : Names constants destination kind index) : IndexFits kind index := by
  cases h with
  | general _ _ _ index_le => exact ⟨_, rfl, index_le⟩
  | counter base_mem =>
    cases kind with
    | general => exact absurd rfl (ne_general_of_mem_counters base_mem)
    | counter => rfl
    | nestedCounter => rfl

end Operand

namespace Command

open Operand

variable {constants : Constants} {symbols : Symbols} {count : ℕ} {command : Command}

theorem Accepts.resolved {operands : List Operand}
    (h : command.Accepts constants symbols count operands) :
    Resolved symbols count command operands := by
  cases h with
  | load opcode_eq _ names yields =>
    refine .load (by rw [opcode_eq]; rfl) (by simp [opcode_eq, impliedRegister?]) names.indexFits ?_
    rw [RegisterClass.sourceBits_eq]
    exact yields.2
  | loadCounter opcode_eq _ yields =>
    exact .load (by rw [opcode_eq]; rfl) (by simp [opcode_eq, impliedRegister?]) rfl yields.2
  | loadNested opcode_eq _ yields =>
    exact .load (by rw [opcode_eq]; rfl) (by simp [opcode_eq, impliedRegister?]) rfl yields.2
  | branch family_eq raw_eq get_eq index_lt => exact .branch family_eq raw_eq get_eq index_lt
  | immediate family_eq _ yields =>
    refine .immediate (.inl family_eq) ?_
    rw [Opcode.operandBits_eq]
    exact yields.2
  | moveFrom opcode_eq _ _ yields =>
    exact .immediate (.inl (by rw [opcode_eq]; rfl)) (by rw [opcode_eq]; exact yields.2)
  | pause opcode_eq => exact .immediate (.inr (by rw [opcode_eq]; rfl)) (Bits.capacity_pos _)
  | longPause opcode_eq _ yields =>
    exact .immediate (.inr (by rw [opcode_eq]; rfl)) (by rw [opcode_eq]; exact yields.2)
  | bare family_eq => exact .bare family_eq

/-- A resolution without faults whose operands have the shape that is asked for. -/
def IsResolved (symbols : Symbols) (count : ℕ) (command : Command) (resolution : Resolution) :
    Prop :=
  ∃ operands, resolution.operands = some operands ∧ Resolved symbols count command operands

/-- A command without faults is resolved. -/
theorem isResolved_of_faults_eq_nil (h : (command.resolve constants symbols count).faults = []) :
    IsResolved symbols count command (command.resolve constants symbols count) := by
  obtain ⟨operands, haccepts⟩ := exists_accepts_of_faults_eq_nil h
  exact ⟨operands, by rw [resolve_of_accepts haccepts], haccepts.resolved⟩

end Command

/-- The errors that validation records for a command. -/
def Command.complaints (constants : Constants) (symbols : Symbols) (count : ℕ) (command : Command) :
    List Diagnostic :=
  (command.resolve constants symbols count).faults.map fun fault ↦
    { severity := .error, stage := .validator, line := some command.line, message := fault.message }

namespace Draft

theorem reportFaults_eq (report : Report) (command : Command) (resolution : Resolution) :
    reportFaults report command resolution = report.addErrors (resolution.faults.map fun fault ↦
      { severity := .error, stage := .validator, line := some command.line,
        message := fault.message }) := by
  unfold reportFaults
  induction resolution.faults generalizing report with
  | nil => exact report.addErrors_nil.symm
  | cons fault rest ih =>
    rw [List.foldl_cons, ih, Report.error_eq_addErrors, Report.addErrors_addErrors]
    rfl

theorem foldl_reportFaults (constants : Constants) (symbols : Symbols) (count : ℕ)
    (commands : List Command) (report : Report) :
    commands.foldl (fun report command ↦
      reportFaults report command (command.resolve constants symbols count)) report =
        report.addErrors (commands.flatMap (Command.complaints constants symbols count)) := by
  induction commands generalizing report with
  | nil => exact report.addErrors_nil.symm
  | cons command rest ih =>
    rw [List.foldl_cons, ih, reportFaults_eq, Report.addErrors_addErrors, List.flatMap_cons]
    rfl

/-- What a draft becomes when it passes validation: the operands are resolved, and the targets of
branches are aligned. -/
def validated (constants : Constants) (alignment : UInt16) (draft : Draft) : Draft where
  commands := (draft.commands.map fun command ↦
    setOperands (command.resolve constants draft.symbols draft.commands.length) command).mapIdx
      (alignTarget alignment draft.targetIndices)
  symbols := draft.symbols.mapWithKey (alignSymbol alignment draft.namedTargets)
  report := draft.report

theorem validate_eq_validated {constants : Constants} (alignment : UInt16) {draft : Draft}
    (herrors : draft.report.tally.errors = 0)
    (hfaults : ∀ command ∈ draft.commands,
      (command.resolve constants draft.symbols draft.commands.length).faults = []) :
    draft.validate constants alignment = (draft.validated constants alignment, .ok ()) := by
  have hnone : draft.commands.flatMap
      (Command.complaints constants draft.symbols draft.commands.length) = [] :=
    List.flatMap_eq_nil_iff.2 fun command hmem ↦ List.map_eq_nil_iff.2 (hfaults command hmem)
  simp only [validate, foldl_reportFaults, hnone, Report.addErrors_nil]
  exact Prod.ext rfl (if_pos herrors)

/-- Validation succeeds only where no error is on record and no command has a fault. -/
theorem of_validate_eq_ok {constants : Constants} {alignment : UInt16} {draft result : Draft}
    (h : draft.validate constants alignment = (result, .ok ())) :
    result = draft.validated constants alignment ∧ draft.report.tally.errors = 0 ∧
      ∀ command ∈ draft.commands,
        (command.resolve constants draft.symbols draft.commands.length).faults = [] := by
  have hnone : (draft.report.addErrors (draft.commands.flatMap
      (Command.complaints constants draft.symbols draft.commands.length))).tally.errors = 0 := by
    rw [← foldl_reportFaults]
    exact Report.check_eq_ok_iff.1 (Prod.mk.inj h).2
  rw [Report.errors_addErrors, Nat.add_eq_zero_iff, List.length_eq_zero_iff,
    List.flatMap_eq_nil_iff] at hnone
  have hfaults : ∀ command ∈ draft.commands,
      (command.resolve constants draft.symbols draft.commands.length).faults = [] :=
    fun command hmem ↦ List.map_eq_nil_iff.1 (hnone.2 command hmem)
  rw [validate_eq_validated alignment hnone.1 hfaults] at h
  exact ⟨(Prod.mk.inj h).1.symm, hnone.1, hfaults⟩

end Draft

end Sequencer
