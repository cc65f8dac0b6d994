import Mathlib
import Sequencer.Proofs.Sweep
import Sequencer.Proofs.Validation
import Sequencer.Proofs.Assembly

/-!
# Diagnostics on record

A pass counts warnings and errors, and it adds to the record, but it never looks up what is there.
With other diagnostics on record before it, a pass ends in the same way, does the same to commands
and symbols, and adds the same.
-/

namespace Sequencer

namespace Report

/-- A report with further diagnostics before its own, which it does not count. -/
def precededBy (report : Report) (past : List Diagnostic) : Report :=
  { report with diagnostics := past ++ report.diagnostics }

variable (report : Report) (past : List Diagnostic)

theorem error_precededBy (stage : Stage) (line : Option ℕ) (message : String) :
    (report.precededBy past).error stage line message =
      (report.error stage line message).precededBy past := by
  simp [precededBy, error, record]

theorem warn_precededBy (stage : Stage) (line : Option ℕ) (message : String) :
    (report.precededBy past).warn stage line message =
      ((report.warn stage line message).1.precededBy past,
        (report.warn stage line message).2) := by
  refine Prod.ext ?_ rfl
  simp [precededBy, warn, record]

theorem fatal_precededBy (stage : Stage) (line : Option ℕ) (message : String) :
    (report.precededBy past).fatal stage line message =
      ((report.fatal stage line message).1.precededBy past,
        (report.fatal stage line message).2) := by
  simp [precededBy, fatal, record]

theorem addErrors_precededBy (added : List Diagnostic) :
    (report.precededBy past).addErrors added = (report.addErrors added).precededBy past := by
  simp [precededBy, addErrors]

end Report

namespace Draft

def precededBy (draft : Draft) (past : List Diagnostic) : Draft :=
  { draft with report := draft.report.precededBy past }

variable (past : List Diagnostic)

theorem validate_precededBy (constants : Constants) (alignment : UInt16) (draft : Draft) :
    (draft.precededBy past).validate constants alignment =
      ((draft.validate constants alignment).1.precededBy past,
        (draft.validate constants alignment).2) := by
  simp only [validate, foldl_reportFaults, precededBy, Report.addErrors_precededBy]
  rfl

theorem placeCommand_precededBy (state : Option UInt32 × Report) (command : Command) :
    placeCommand (state.1, state.2.precededBy past) command =
      (((placeCommand state command).1.1, (placeCommand state command).1.2.precededBy past),
        (placeCommand state command).2) := by
  simp only [placeCommand, Report.fatal_precededBy]
  split <;> rfl

theorem assignAddresses_precededBy (draft : Draft) :
    (draft.precededBy past).assignAddresses =
      (draft.assignAddresses.1.precededBy past, draft.assignAddresses.2) := by
  have hsweep := sweep_comm (placeCommand_precededBy past) (none, draft.report) draft.commands
  simp only [assignAddresses, precededBy]
  rw [hsweep]

theorem placeSymbol_precededBy (commands : List Command) (report : Report) (name : Text)
    (symbol : Symbol) :
    placeSymbol commands (report.precededBy past) name symbol =
      ((placeSymbol commands report name symbol).1.precededBy past,
        (placeSymbol commands report name symbol).2) := by
  simp only [placeSymbol, Report.warn_precededBy]
  split <;> rfl

theorem backfillSymbols_precededBy (draft : Draft) :
    (draft.precededBy past).backfillSymbols =
      (draft.backfillSymbols.1.precededBy past, draft.backfillSymbols.2) := by
  have hsweep := Table.sweep_comm (fun report ↦ placeSymbol_precededBy past draft.commands report)
    draft.symbols draft.report
  simp only [backfillSymbols, precededBy]
  rw [hsweep]

theorem warnDroppedFlags_precededBy (report : Report) (command : Command) :
    warnDroppedFlags (report.precededBy past) command =
      ((warnDroppedFlags report command).1.precededBy past,
        (warnDroppedFlags report command).2) := by
  unfold warnDroppedFlags
  split
  · rfl
  · split
    · rfl
    · exact Report.warn_precededBy report past _ _ _

theorem encodeCommand_precededBy (symbols : Symbols) (report : Report) (command : Command) :
    encodeCommand symbols (report.precededBy past) command =
      ((encodeCommand symbols report command).1.precededBy past,
        (encodeCommand symbols report command).2) := by
  unfold encodeCommand
  rw [warnDroppedFlags_precededBy]
  rcases warnDroppedFlags report command with ⟨next, failure | ⟨⟩⟩
  · rfl
  · simp only [Report.fatal_precededBy, Report.error_precededBy]
    split
    · rfl
    · split <;> rfl

theorem encodeCommands_precededBy (draft : Draft) :
    (draft.precededBy past).encodeCommands =
      (draft.encodeCommands.1.precededBy past, draft.encodeCommands.2) := by
  have hsweep := sweep_comm (fun report ↦ encodeCommand_precededBy past draft.symbols report)
    draft.report draft.commands
  simp only [encodeCommands, precededBy]
  rw [hsweep]

theorem andThen_precededBy {before : Draft × Except Failure Unit}
    {pass : Draft → Draft × Except Failure Unit}
    (h : ∀ draft, pass (draft.precededBy past) = ((pass draft).1.precededBy past, (pass draft).2)) :
    andThen (before.1.precededBy past, before.2) pass =
      ((andThen before pass).1.precededBy past, (andThen before pass).2) := by
  rcases before with ⟨draft, failure | ⟨⟩⟩
  · rfl
  · exact h draft

theorem link_precededBy (draft : Draft) :
    (draft.precededBy past).link = (draft.link.1.precededBy past, draft.link.2) := by
  unfold link
  rw [assignAddresses_precededBy, andThen_precededBy past (backfillSymbols_precededBy past),
    andThen_precededBy past (encodeCommands_precededBy past)]
  exact andThen_precededBy past fun draft ↦ rfl

end Draft

end Sequencer
