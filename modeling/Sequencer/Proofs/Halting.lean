import Mathlib
import Sequencer.Report
import Sequencer.Proofs.Report
import Sequencer.Proofs.Sweep

/-!
# Reports under way and reports that are closed

While a run goes on, its report counts what it holds, holds no fatal diagnostic, and is short of the
warning limit. Each way to record something keeps this, or closes the report with the failure that
ends the run. What a closed report looks like depends on the failure alone.
-/

namespace Sequencer

namespace Stage

/-- The place of a stage in the order of the passes. -/
def place (stage : Stage) : ℕ := all.idxOf stage

/-- The stages whose errors can be on record while a stage is at work. Errors of the first two
passes are checked together, and none is left when linking starts. -/
def faulty : Stage → List Stage
  | inclusion => []
  | parser => [parser]
  | validator => [parser, validator]
  | linker => [linker]
  | disassembler => []

end Stage

/-- The tally after one more diagnostic of a severity; fatal ones are not counted. -/
def Tally.add (tally : Tally) : Severity → Tally
  | .info => { tally with infos := tally.infos + 1 }
  | .warning => { tally with warnings := tally.warnings + 1 }
  | .error => { tally with errors := tally.errors + 1 }
  | .fatal => tally

namespace Report

/-- How many diagnostics of a severity a report holds. -/
def count (report : Report) (severity : Severity) : ℕ :=
  report.diagnostics.countP (·.severity = severity)

/-- The tally counts the diagnostics, and the diagnostics stand in the order of the stages that
recorded them, `stage` being the last. -/
structure IsOrderly (stage : Stage) (report : Report) : Prop where
  infos_eq : report.tally.infos = report.count .info
  warnings_eq : report.tally.warnings = report.count .warning
  errors_eq : report.tally.errors = report.count .error
  ordered : report.diagnostics.Pairwise fun a b ↦ a.stage.place ≤ b.stage.place
  place_le : ∀ d ∈ report.diagnostics, d.stage.place ≤ stage.place

/-- A report to which `stage` may still add, under a warning limit. -/
structure IsOpen (limit : Option ℕ) (stage : Stage) (report : Report) : Prop
    extends IsOrderly stage report where
  ne_fatal : ∀ d ∈ report.diagnostics, d.severity ≠ .fatal
  mem_faulty : ∀ d ∈ report.diagnostics, d.severity = .error → d.stage ∈ stage.faulty
  limit_eq : report.warningLimit = limit
  warnings_lt : ∀ bound, limit = some bound → report.tally.warnings < max bound 1

/-- How the diagnostics of a run stand to the failure that ended it. -/
def Explains (limit : Option ℕ) (diagnostics : List Diagnostic) : Failure → Prop
  | .fatal stage line message =>
    ∃ before, diagnostics = before ++ [{ severity := .fatal, stage, line, message }] ∧
      ∀ d ∈ before, d.severity ≠ .fatal
  | .warningLimit warnings =>
    (∃ bound, limit = some bound ∧ warnings = max bound 1) ∧
      diagnostics.countP (·.severity = .warning) = warnings ∧
      (∃ d, diagnostics.getLast? = some d ∧ d.severity = .warning) ∧
      ∀ d ∈ diagnostics, d.severity ≠ .fatal
  | .aborted .validator errors =>
    0 < errors ∧ diagnostics.countP (·.severity = .error) = errors ∧
      (∀ d ∈ diagnostics, d.severity = .error → d.stage = .parser ∨ d.stage = .validator) ∧
      ∀ d ∈ diagnostics, d.severity ≠ .fatal
  | .aborted .linker errors =>
    0 < errors ∧ diagnostics.countP (·.severity = .error) = errors ∧
      (∀ d ∈ diagnostics, d.severity = .error → d.stage = .linker) ∧
      ∀ d ∈ diagnostics, d.severity ≠ .fatal
  | _ => False

/-- A report that a failure closed while `stage` was at work. -/
structure IsClosed (limit : Option ℕ) (stage : Stage) (report : Report) (failure : Failure) : Prop
    extends IsOrderly stage report where
  explains : Explains limit report.diagnostics failure

/-- A pass of `stage` leaves a report open if it succeeds and closed if it fails. -/
abbrev Ends {α : Type} (limit : Option ℕ) (stage : Stage) (report : Report)
    (outcome : Except Failure α) : Prop :=
  Leaves (IsOpen limit stage) (IsClosed limit stage) report outcome

variable {limit : Option ℕ} {stage later : Stage} {report next : Report}

theorem IsOrderly.mono (h : report.IsOrderly stage) (hle : stage.place ≤ later.place) :
    report.IsOrderly later :=
  { h with place_le := fun d hmem ↦ (h.place_le d hmem).trans hle }

theorem IsClosed.mono {failure : Failure} (h : report.IsClosed limit stage failure)
    (hle : stage.place ≤ later.place) : report.IsClosed limit later failure :=
  ⟨h.toIsOrderly.mono hle, h.explains⟩

/-- The next stage takes a report over as it is. -/
theorem IsOpen.mono (h : report.IsOpen limit stage) (hle : stage.place ≤ later.place)
    (hfaulty : stage.faulty ⊆ later.faulty) : report.IsOpen limit later :=
  { h with
    toIsOrderly := h.toIsOrderly.mono hle
    mem_faulty := fun d hmem herror ↦ hfaulty (h.mem_faulty d hmem herror) }

theorem count_eq_zero {severity : Severity} :
    report.count severity = 0 ↔ ∀ d ∈ report.diagnostics, d.severity ≠ severity := by
  simp [count, List.countP_eq_zero]

/-- Without errors on record, only the errors of later stages matter. -/
theorem IsOpen.advance (h : report.IsOpen limit stage) (hle : stage.place ≤ later.place)
    (hnone : report.tally.errors = 0) : report.IsOpen limit later := by
  rw [h.errors_eq, count_eq_zero] at hnone
  exact { h with
    toIsOrderly := h.toIsOrderly.mono hle
    mem_faulty := fun d hmem herror ↦ absurd herror (hnone d hmem) }

theorem isOpen_start (limit : Option ℕ) (stage : Stage) : (start limit).IsOpen limit stage where
  infos_eq := rfl
  warnings_eq := rfl
  errors_eq := rfl
  ordered := List.Pairwise.nil
  place_le := by simp [start]
  ne_fatal := by simp [start]
  mem_faulty := by simp [start]
  limit_eq := rfl
  warnings_lt := fun bound _ ↦ Nat.lt_of_lt_of_le Nat.one_pos (Nat.le_max_right bound 1)

/-! ## Recording -/

section

variable {d : Diagnostic}

theorem count_append (hdiagnostics : next.diagnostics = report.diagnostics ++ [d])
    (severity : Severity) :
    next.count severity = report.count severity + if d.severity = severity then 1 else 0 := by
  unfold count
  rw [hdiagnostics, List.countP_append, List.countP_singleton]
  simp

/-- A diagnostic of the stage at work that is also counted keeps the report orderly. -/
theorem IsOrderly.append (h : report.IsOrderly stage) (hstage : d.stage = stage)
    (hdiagnostics : next.diagnostics = report.diagnostics ++ [d])
    (htally : next.tally = report.tally.add d.severity) : next.IsOrderly stage := by
  refine ⟨?_, ?_, ?_, ?_, ?_⟩
  · rw [count_append hdiagnostics, htally, ← h.infos_eq]
    cases d.severity <;> rfl
  · rw [count_append hdiagnostics, htally, ← h.warnings_eq]
    cases d.severity <;> rfl
  · rw [count_append hdiagnostics, htally, ← h.errors_eq]
    cases d.severity <;> rfl
  · rw [hdiagnostics, List.pairwise_append]
    refine ⟨h.ordered, List.pairwise_singleton _ _, fun a hmem b hb ↦ ?_⟩
    obtain rfl := List.mem_singleton.1 hb
    rw [hstage]
    exact h.place_le a hmem
  · rw [hdiagnostics, List.forall_mem_append, List.forall_mem_singleton, hstage]
    exact ⟨h.place_le, le_rfl⟩

/-- A diagnostic that does not end the run leaves the report open. -/
theorem IsOpen.append (h : report.IsOpen limit stage) (hstage : d.stage = stage)
    (hdiagnostics : next.diagnostics = report.diagnostics ++ [d])
    (htally : next.tally = report.tally.add d.severity)
    (hlimit : next.warningLimit = report.warningLimit) (hfatal : d.severity ≠ .fatal)
    (herror : d.severity = .error → stage ∈ stage.faulty)
    (hwarnings : ∀ bound, limit = some bound → next.tally.warnings < max bound 1) :
    next.IsOpen limit stage := by
  refine ⟨h.toIsOrderly.append hstage hdiagnostics htally, ?_, ?_, hlimit.trans h.limit_eq,
    hwarnings⟩
  · rw [hdiagnostics, List.forall_mem_append, List.forall_mem_singleton]
    exact ⟨h.ne_fatal, hfatal⟩
  · rw [hdiagnostics, List.forall_mem_append, List.forall_mem_singleton, hstage]
    exact ⟨h.mem_faulty, herror⟩

end

variable {line : Option ℕ} {message : String}

theorem IsOpen.info (h : report.IsOpen limit stage) :
    (report.info stage line message).IsOpen limit stage :=
  h.append rfl rfl rfl rfl (by simp) (by simp) h.warnings_lt

theorem IsOpen.error (h : report.IsOpen limit stage) (hfaulty : stage ∈ stage.faulty) :
    (report.error stage line message).IsOpen limit stage :=
  h.append rfl rfl rfl rfl (by simp) (fun _ ↦ hfaulty) h.warnings_lt

/-- A fatal diagnostic closes the report, whatever was recorded before it. -/
theorem IsOpen.fatal (h : report.IsOpen limit stage) :
    (report.fatal stage line message).1.IsClosed limit stage
      (report.fatal stage line message).2 :=
  ⟨h.toIsOrderly.append rfl rfl rfl, report.diagnostics, rfl, h.ne_fatal⟩

/-- A warning leaves the report open while the limit is not met. The one that meets it closes the
report, and then there are as many warnings as the limit says, or one if it is zero. -/
theorem IsOpen.warn (h : report.IsOpen limit stage) :
    Ends limit stage (report.warn stage line message).1
      (report.warn stage line message).2 := by
  generalize hnext : (report.warn stage line message).1 = next
  have hdiagnostics : next.diagnostics = report.diagnostics ++
      [{ severity := .warning, stage, line, message }] := by rw [← hnext]; rfl
  have htally : next.tally = report.tally.add .warning := by rw [← hnext]; rfl
  have hlimit : next.warningLimit = limit := by rw [← hnext]; exact h.limit_eq
  have hwarnings : next.tally.warnings = report.tally.warnings + 1 := by rw [htally]; rfl
  have houtcome : (report.warn stage line message).2 =
      if next.warningLimitMet then .error (.warningLimit next.tally.warnings) else .ok () := by
    rw [← hnext]
    rfl
  have horderly := h.toIsOrderly.append rfl hdiagnostics htally
  rw [houtcome]
  by_cases hmet : next.warningLimitMet = true
  · obtain ⟨bound, hbound, hle⟩ := warningLimitMet_iff.1 hmet
    rw [hlimit] at hbound
    have hlt := h.warnings_lt bound hbound
    rw [if_pos hmet]
    refine ⟨horderly, ⟨bound, hbound, by omega⟩, horderly.warnings_eq.symm, ?_, ?_⟩
    · rw [hdiagnostics, List.getLast?_concat]
      exact ⟨_, rfl, rfl⟩
    · rw [hdiagnostics, List.forall_mem_append, List.forall_mem_singleton]
      exact ⟨h.ne_fatal, by simp⟩
  · rw [if_neg hmet]
    apply h.append rfl hdiagnostics htally (hlimit.trans h.limit_eq.symm) (by simp) (by simp)
    intro bound hbound
    have hlt : next.tally.warnings < bound := by
      by_contra hle
      exact hmet (warningLimitMet_iff.2 ⟨bound, hlimit.trans hbound, Nat.le_of_not_lt hle⟩)
    exact hlt.trans_le (Nat.le_max_left bound 1)

/-- The check that closes a pass aborts the run with the errors on record. -/
theorem IsOpen.check (h : report.IsOpen limit stage)
    (hstage : stage = .validator ∨ stage = .linker) :
    Ends limit stage report (report.check stage) := by
  unfold Report.check
  split
  · exact h
  · next hsome =>
    refine ⟨h.toIsOrderly, ?_⟩
    have hmem := h.mem_faulty
    have hcount := h.errors_eq.symm
    obtain rfl | rfl := hstage
    · exact ⟨Nat.pos_of_ne_zero hsome, hcount, by simpa [Stage.faulty] using hmem, h.ne_fatal⟩
    · exact ⟨Nat.pos_of_ne_zero hsome, hcount, by simpa [Stage.faulty] using hmem, h.ne_fatal⟩

end Report

end Sequencer
