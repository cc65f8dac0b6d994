import Mathlib
import Sequencer.Report

/-!
# How reports grow

Passes only ever append to a report. What a pass may append is a property of diagnostics, and a pass
that a warning ended has met the warning limit.
-/

namespace Sequencer.Report

variable {kind : Diagnostic → Prop} {before between after : Report}

/-- One report continues another by diagnostics of a kind, under the same warning limit. -/
structure Continues (kind : Diagnostic → Prop) (before after : Report) : Prop where
  warningLimit_eq : after.warningLimit = before.warningLimit
  warnings_le : before.tally.warnings ≤ after.tally.warnings
  appended : ∃ added, after.diagnostics = before.diagnostics ++ added ∧ ∀ d ∈ added, kind d

theorem Continues.refl (report : Report) : Continues kind report report :=
  ⟨rfl, le_rfl, [], by simp, by simp⟩

theorem Continues.trans (first : Continues kind before between)
    (second : Continues kind between after) : Continues kind before after := by
  obtain ⟨added, hadded, hkind⟩ := first.appended
  obtain ⟨more, hmore, hkind'⟩ := second.appended
  refine ⟨second.warningLimit_eq.trans first.warningLimit_eq,
    first.warnings_le.trans second.warnings_le, added ++ more, ?_, ?_⟩
  · rw [hmore, hadded, List.append_assoc]
  · intro d hd
    exact (List.mem_append.1 hd).elim (hkind d) (hkind' d)

theorem Continues.mono {other : Diagnostic → Prop} (h : Continues kind before after)
    (himp : ∀ d, kind d → other d) : Continues other before after := by
  obtain ⟨added, hadded, hkind⟩ := h.appended
  exact ⟨h.warningLimit_eq, h.warnings_le, added, hadded, fun d hd ↦ himp d (hkind d hd)⟩

/-- A report with further errors on record. -/
def addErrors (report : Report) (added : List Diagnostic) : Report :=
  { report with
    diagnostics := report.diagnostics ++ added
    tally := { report.tally with errors := report.tally.errors + added.length } }

theorem addErrors_nil (report : Report) : report.addErrors [] = report := by
  simp [addErrors]

theorem addErrors_addErrors (report : Report) (added more : List Diagnostic) :
    (report.addErrors added).addErrors more = report.addErrors (added ++ more) := by
  simp [addErrors, Nat.add_assoc]

theorem errors_addErrors (report : Report) (added : List Diagnostic) :
    (report.addErrors added).tally.errors = report.tally.errors + added.length := rfl

theorem error_eq_addErrors (report : Report) (stage : Stage) (line : Option ℕ) (message : String) :
    report.error stage line message =
      report.addErrors [{ severity := .error, stage, line, message }] := rfl

/-- One report is another with further errors. -/
def AddsErrors (before after : Report) : Prop :=
  ∃ added, after = before.addErrors added ∧ ∀ d ∈ added, d.severity = .error

theorem AddsErrors.refl (report : Report) : AddsErrors report report :=
  ⟨[], report.addErrors_nil.symm, by simp⟩

theorem AddsErrors.trans (first : AddsErrors before between) (second : AddsErrors between after) :
    AddsErrors before after := by
  obtain ⟨added, rfl, herrors⟩ := first
  obtain ⟨more, rfl, herrors'⟩ := second
  refine ⟨added ++ more, before.addErrors_addErrors added more, fun d hd ↦ ?_⟩
  exact (List.mem_append.1 hd).elim (herrors d) (herrors' d)

theorem addsErrors_error (report : Report) (stage : Stage) (line : Option ℕ) (message : String) :
    AddsErrors report (report.error stage line message) :=
  ⟨[_], report.error_eq_addErrors stage line message, by simp⟩

theorem AddsErrors.errors_le (h : AddsErrors before after) :
    before.tally.errors ≤ after.tally.errors := by
  obtain ⟨added, rfl, -⟩ := h
  rw [errors_addErrors]
  exact Nat.le_add_right _ _

theorem AddsErrors.keeps_errors (h : AddsErrors before after) : before.errors <+: after.errors := by
  obtain ⟨added, rfl, -⟩ := h
  rw [errors, errors, addErrors, List.filter_append]
  exact List.prefix_append _ _

theorem check_eq_ok_iff {report : Report} {stage : Stage} :
    report.check stage = .ok () ↔ report.tally.errors = 0 := by
  unfold check
  split <;> simp_all

theorem warningLimitMet_iff {report : Report} :
    report.warningLimitMet = true ↔
      ∃ limit, report.warningLimit = some limit ∧ limit ≤ report.tally.warnings := by
  simp [warningLimitMet, Option.any_eq_true]

/-- A run failed because a warning met the limit. -/
structure HaltedByWarning (before after : Report) (failure : Failure) : Prop where
  failure_eq : failure = .warningLimit after.tally.warnings
  warnings_lt : before.tally.warnings < after.tally.warnings
  limit_met : ∃ limit, before.warningLimit = some limit ∧ limit ≤ after.tally.warnings

theorem HaltedByWarning.of_continues {failure : Failure} (first : Continues kind before between)
    (second : HaltedByWarning between after failure) : HaltedByWarning before after failure := by
  obtain ⟨limit, hlimit, hmet⟩ := second.limit_met
  refine ⟨second.failure_eq, first.warnings_le.trans_lt second.warnings_lt, limit, ?_, hmet⟩
  rw [← first.warningLimit_eq, hlimit]

/-- Warnings were recorded, and with them the limit is met. -/
def MeetsLimit (before after : Report) : Prop :=
  before.tally.warnings < after.tally.warnings ∧ after.warningLimitMet = true

theorem HaltedByWarning.meetsLimit {failure : Failure} (h : HaltedByWarning before after failure)
    (hcontinues : Continues kind before after) : MeetsLimit before after := by
  obtain ⟨limit, hlimit, hmet⟩ := h.limit_met
  refine ⟨h.warnings_lt, warningLimitMet_iff.2 ⟨limit, ?_, hmet⟩⟩
  rw [hcontinues.warningLimit_eq, hlimit]

theorem continues_error (report : Report) {stage : Stage} {line : Option ℕ} {message : String}
    (hkind : kind { severity := .error, stage, line, message }) :
    Continues kind report (report.error stage line message) :=
  ⟨rfl, le_rfl, [_], rfl, by simpa using hkind⟩

theorem continues_fatal (report : Report) {stage : Stage} {line : Option ℕ} {message : String}
    (hkind : kind { severity := .fatal, stage, line, message }) :
    Continues kind report (report.fatal stage line message).1 :=
  ⟨rfl, le_rfl, [_], rfl, by simpa using hkind⟩

/-- A warning is recorded, and it may halt the run. -/
theorem warn_cases (report : Report) {stage : Stage} {line : Option ℕ} {message : String}
    (hkind : kind { severity := .warning, stage, line, message }) :
    ∃ next, Continues kind report next ∧ next.tally.errors = report.tally.errors ∧
      (report.warn stage line message = (next, .ok ()) ∧ next.warningLimitMet = false ∨
        ∃ failure, report.warn stage line message = (next, .error failure) ∧
          HaltedByWarning report next failure) := by
  refine ⟨(report.warn stage line message).1, ⟨rfl, Nat.le_succ _, [_], rfl, by simpa using hkind⟩,
    rfl, ?_⟩
  by_cases hmet : (report.warn stage line message).1.warningLimitMet
  · exact .inr ⟨_, Prod.ext rfl (if_pos hmet), rfl, Nat.lt_succ_self _, warningLimitMet_iff.1 hmet⟩
  · exact .inl ⟨Prod.ext rfl (if_neg hmet), by simpa using hmet⟩

end Sequencer.Report
