import Mathlib
import Sequencer.Assembly
import Sequencer.Proofs.Halting
import Sequencer.Proofs.LinkOutcome

/-!
# How a run ends and what its report says

Inclusion, reading, validation and linking each take an open report and leave it open or close it.
Put one after the other they show that the outcome of a run and its report tell the same story, for
every source, every file system and all settings.
-/

namespace Sequencer

open Report

variable {limit : Option ℕ} {report : Report}

/-! ## Inclusion -/

namespace Inclusion

theorem load_ends (h : report.IsOpen limit .inclusion) (host : Host) (path : Text)
    (line : Option ℕ) :
    Ends limit .inclusion (load host path line report).1 (load host path line report).2 := by
  unfold load
  split
  · exact h
  · exact h.fatal

theorem splice_ends (host : Host) (allowed left : ℕ) (h : report.IsOpen limit .inclusion)
    (pending : List FileLine) :
    Ends limit .inclusion (splice host allowed left report pending).1
      (splice host allowed left report pending).2 := by
  induction left generalizing report pending with
  | zero =>
    unfold splice
    split
    · exact h
    · exact h.fatal
  | succ left ih =>
    unfold splice
    split
    · exact h
    · dsimp only
      split
      · next hfailure =>
        have hload := leaves_of_eq hfailure (load_ends h.info _ _ _)
        exact hload
      · next included hloaded =>
        have hload := leaves_of_eq hloaded (load_ends h.info _ _ _)
        exact leaves_map.2 (ih hload _)

theorem loadSource_ends (h : report.IsOpen limit .inclusion) (host : Host) (allowed : ℕ)
    (path : Text) :
    Ends limit .inclusion (loadSource host allowed path report).1
      (loadSource host allowed path report).2 := by
  unfold loadSource
  split
  · next hfailure =>
    have hload := leaves_of_eq hfailure (load_ends h host path none)
    exact hload
  · next hloaded =>
    have hload := leaves_of_eq hloaded (load_ends h host path none)
    exact splice_ends host allowed allowed hload _

end Inclusion

/-! ## Reading -/

namespace Reader

variable {reader : Reader}

theorem label_isOpen (h : reader.report.IsOpen limit .parser) (line : ℕ) (label : Option Text) :
    (reader.label line label).report.IsOpen limit .parser := by
  unfold Reader.label
  split
  · exact h
  · split
    · exact h
    · exact h.error (by decide)

theorem definition_ends (h : reader.report.IsOpen limit .parser) (line : ℕ)
    (name expression : Text) :
    Ends limit .parser (reader.definition line name expression).1.report
      (reader.definition line name expression).2 := by
  unfold definition
  split
  · exact h.fatal
  · split
    · exact h
    · exact h.error (by decide)

theorem instruction_isOpen (h : reader.report.IsOpen limit .parser) (line : ℕ) (flags : FlagSet)
    (tokens : List Text) :
    (reader.instruction line flags tokens).1.report.IsOpen limit .parser := by
  unfold instruction
  split
  · exact h
  · dsimp only
    split
    · exact h.error (by decide)
    · split
      · exact h.error (by decide)
      · exact h

theorem line_ends (h : reader.report.IsOpen limit .parser) (source : SourceLine) :
    Ends limit .parser (reader.line source).1.report (reader.line source).2 := by
  have hlabel := label_isOpen h source.number (Statement.ofText source.text).label
  unfold line
  dsimp only
  split
  · exact definition_ends hlabel source.number _ _
  · exact instruction_isOpen hlabel source.number _ _

theorem lines_ends (h : reader.report.IsOpen limit .parser) (source : List SourceLine) :
    Ends limit .parser (reader.lines source).1.report (reader.lines source).2 := by
  induction source generalizing reader with
  | nil => exact h
  | cons first rest ih =>
    have hline := line_ends h first
    unfold lines
    split
    · next hfailure =>
      rw [hfailure] at hline
      exact hline
    · next hcommand =>
      rw [hcommand] at hline
      exact leaves_map.2 (ih hline)

theorem finish_ends (h : reader.report.IsOpen limit .parser) (lastLine : Option ℕ) :
    Ends limit .parser (reader.finish lastLine).1.report (reader.finish lastLine).2 := by
  unfold finish
  split
  · exact h
  · exact h.warn

theorem read_ends (h : reader.report.IsOpen limit .parser) (source : List SourceLine) :
    Ends limit .parser (reader.read source).1.report (reader.read source).2 := by
  have hlines := lines_ends h source
  unfold read
  split
  · next hfailure =>
    rw [hfailure] at hlines
    exact hlines
  · next hcommands =>
    rw [hcommands] at hlines
    exact leaves_map.2 (finish_ends hlines _)

end Reader

/-! ## Validation and linking -/

namespace Draft

variable {draft : Draft}

theorem reportFaults_isOpen (h : report.IsOpen limit .validator) (command : Command)
    (resolution : Resolution) : (reportFaults report command resolution).IsOpen limit .validator :=
  List.foldlRecOn _ _ h fun _ hreport _ _ ↦ hreport.error (by decide)

theorem validate_ends (h : draft.report.IsOpen limit .validator) (constants : Constants)
    (alignment : UInt16) :
    Ends limit .validator (draft.validate constants alignment).1.report
      (draft.validate constants alignment).2 :=
  IsOpen.check (List.foldlRecOn _ _ h fun _ hreport _ _ ↦ reportFaults_isOpen hreport _ _)
    (.inl rfl)

theorem placeSymbol_ends (h : report.IsOpen limit .linker) (commands : List Command) (name : Text)
    (symbol : Symbol) :
    Ends limit .linker (placeSymbol commands report name symbol).1
      (placeSymbol commands report name symbol).2 := by
  unfold placeSymbol
  split
  · exact h
  · exact leaves_map.2 h.warn

theorem backfillSymbols_ends (h : draft.report.IsOpen limit .linker) :
    Ends limit .linker draft.backfillSymbols.1.report draft.backfillSymbols.2 :=
  Table.sweep_leaves (fun _ name symbol hreport ↦ placeSymbol_ends hreport _ name symbol) h

theorem warnDroppedFlags_ends (h : report.IsOpen limit .linker) (command : Command) :
    Ends limit .linker (warnDroppedFlags report command).1 (warnDroppedFlags report command).2 := by
  unfold warnDroppedFlags
  split
  · exact h
  · split
    · exact h
    · exact h.warn

/-- A command whose fault, if it has one, is not internal leaves an error at most. -/
theorem encodeCommand_ends (h : report.IsOpen limit .linker) {symbols : Symbols}
    {command : Command}
    (hfault : ∀ fault, command.encode symbols = .error fault → fault.isInternal = false) :
    Ends limit .linker (encodeCommand symbols report command).1
      (encodeCommand symbols report command).2 := by
  unfold encodeCommand
  split
  · next hfailure =>
    have hwarn := leaves_of_eq hfailure (warnDroppedFlags_ends h command)
    exact hwarn
  · next hwarned =>
    have hwarn := leaves_of_eq hwarned (warnDroppedFlags_ends h command)
    split
    · exact hwarn
    · next fault hencode =>
      rw [if_neg (by simp [hfault fault hencode])]
      exact IsOpen.error hwarn (by decide)

theorem encodeCommands_ends (h : draft.report.IsOpen limit .linker)
    (hfault : ∀ command ∈ draft.commands, ∀ fault,
      command.encode draft.symbols = .error fault → fault.isInternal = false) :
    Ends limit .linker draft.encodeCommands.1.report draft.encodeCommands.2 :=
  sweep_leaves (fun _ command hmem hreport ↦ encodeCommand_ends hreport (hfault command hmem)) h

theorem andThen_ends {stage : Stage} {before : Draft × Except Failure Unit}
    {pass : Draft → Draft × Except Failure Unit}
    (hbefore : Ends limit stage before.1.report before.2)
    (hpass : before.2 = .ok () → before.1.report.IsOpen limit stage →
      Ends limit stage (pass before.1).1.report (pass before.1).2) :
    Ends limit stage (andThen before pass).1.report (andThen before pass).2 := by
  obtain ⟨draft, failure | ⟨⟩⟩ := before
  · exact hbefore
  · exact hpass rfl hbefore

/-- Linking a validated draft: the address that leaves the memory is fatal, and no command is met
that was never resolved. -/
theorem link_ends (h : draft.report.IsOpen limit .linker) (hresolved : draft.IsResolved)
    (htargets : draft.HasEvenTargets) :
    Ends limit .linker draft.link.1.report draft.link.2 := by
  by_cases hfit : draft.FitsMemory
  · have hfault : ∀ command ∈ draft.placed.commands, ∀ fault,
        command.encode draft.linkedSymbols = .error fault → fault.isInternal = false := by
      intro command hmem fault hencode
      obtain ⟨overflow, rfl⟩ :=
        exists_overflow_of_encode ⟨hresolved, htargets, hfit⟩ hmem hencode
      rfl
    unfold link
    rw [assignAddresses_eq_placed hfit]
    have hplaced : draft.placed.report.IsOpen limit .linker := h
    refine andThen_ends (andThen_ends (backfillSymbols_ends hplaced) ?_) ?_
    · intro hok hopen
      obtain ⟨next, hbackfill, -⟩ | ⟨symbols, next, failure, hbackfill, -⟩ :=
        backfillSymbols_cases draft.placed
      · simp only [andThen, hbackfill] at hopen ⊢
        exact encodeCommands_ends hopen hfault
      · simp [andThen, hbackfill] at hok
    · intro _ hopen
      exact hopen.check (.inr rfl)
  · obtain ⟨commands, line, message, hfatal⟩ := assignAddresses_fatal hfit
    unfold link
    rw [hfatal]
    exact h.fatal

/-- The last thing linking does is to check that there are no errors. -/
theorem errors_of_link (h : draft.link.2 = .ok ()) : draft.link.1.report.tally.errors = 0 := by
  unfold link at h ⊢
  generalize andThen (andThen draft.assignAddresses backfillSymbols) encodeCommands = before at h ⊢
  obtain ⟨encoded, failure | ⟨⟩⟩ := before
  · cases h
  · exact check_eq_ok_iff.1 h

end Draft

/-! ## A whole run -/

variable {settings : Settings}

/-- From an open report on, a run under valid settings leaves the report open if it gives a program
and closed if it fails. -/
theorem assembleInto_ends (hzero : settings.branchAlignment ≠ 0)
    (heven : settings.branchAlignment % 2 = 0) (h : report.IsOpen limit .inclusion)
    (source : List SourceLine) :
    Ends limit .linker (assembleInto settings report source).1
      (assembleInto settings report source).2 := by
  have hparser : ({ report } : Reader).report.IsOpen limit .parser :=
    h.mono (by decide) (by simp [Stage.faulty])
  have hread := Reader.read_ends hparser source
  rcases hreader : ({ report } : Reader).read source with ⟨reader, failure | commands⟩
  · rw [hreader] at hread
    have hclosed : reader.report.IsClosed limit .parser failure := hread
    unfold assembleInto
    rw [hreader]
    exact hclosed.mono (by decide)
  rw [hreader] at hread
  have hopen : (reader.draft commands).report.IsOpen limit .parser := hread
  have hvalidate := Draft.validate_ends (hopen.mono (by decide) (by simp [Stage.faulty]))
    reader.constants settings.branchAlignment
  rcases hvalidated : (reader.draft commands).validate reader.constants settings.branchAlignment
    with ⟨validated, failure | ⟨⟩⟩
  · rw [hvalidated] at hvalidate
    have hclosed : validated.report.IsClosed limit .validator failure := hvalidate
    rw [assembleInto_of_read hreader, hvalidated]
    exact hclosed.mono (by decide)
  · rw [hvalidated] at hvalidate
    have hopen : validated.report.IsOpen limit .validator := hvalidate
    obtain ⟨hresolved, htargets, herrors⟩ := resolved_of_validate hzero heven hreader hvalidated
    rw [assembleInto_of_validate hreader hvalidated]
    -- the check after validation has seen to it that linking starts without errors
    exact leaves_map.2 (Draft.link_ends (hopen.advance (by decide) herrors) hresolved htargets)

/-- A program carries the report of its run, and there are no errors in it. -/
theorem report_of_assembleInto {source : List SourceLine} {program : Program}
    (h : (assembleInto settings report source).2 = .ok program) :
    program.report = (assembleInto settings report source).1 ∧
      program.report.tally.errors = 0 := by
  obtain ⟨reader, commands, validated, hread, hvalidate, hlink, -⟩ :=
    exists_passes_of_assembleInto h
  have herrors := Draft.errors_of_link (congrArg Prod.snd hlink)
  rw [assembleInto_of_validate hread hvalidate]
  rw [hlink] at herrors ⊢
  exact ⟨rfl, herrors⟩

namespace Report

/-- What the report of a run says, given how the run ended. -/
def Tells (settings : Settings) (report : Report) : Except Failure Program → Prop
  | .ok program =>
    program.report = report ∧
      (∀ d ∈ report.diagnostics, d.severity ≠ .error ∧ d.severity ≠ .fatal) ∧
      ∀ bound, settings.warningLimit = some bound → report.count .warning < max bound 1
  | .error (.badAlignment alignment) =>
    alignment = settings.branchAlignment ∧ report.diagnostics = []
  | .error failure => Explains settings.warningLimit report.diagnostics failure

/-- Outcome and report of a run agree, and settings are refused for the alignment alone. -/
structure Accounts (settings : Settings) (run : Report × Except Failure Program) : Prop where
  orderly : run.1.IsOrderly .linker
  tells : run.1.Tells settings run.2
  refused_iff : (∃ alignment, run.2 = .error (.badAlignment alignment)) ↔
    settings.branchAlignment = 0 ∨ settings.branchAlignment % 2 ≠ 0

/-- A closed report was not closed by the settings. -/
theorem IsClosed.ne_badAlignment {stage : Stage} {failure : Failure}
    (h : report.IsClosed limit stage failure) (alignment : UInt16) :
    failure ≠ .badAlignment alignment := by
  rintro rfl
  exact h.explains

theorem accounts_refused (h : settings.branchAlignment = 0 ∨ settings.branchAlignment % 2 ≠ 0) :
    Accounts settings
      (start settings.warningLimit, .error (.badAlignment settings.branchAlignment)) where
  orderly := (isOpen_start settings.warningLimit .linker).toIsOrderly
  tells := ⟨rfl, rfl⟩
  refused_iff := iff_of_true ⟨_, rfl⟩ h

theorem accounts_failed {failure : Failure}
    (hvalid : ¬(settings.branchAlignment = 0 ∨ settings.branchAlignment % 2 ≠ 0))
    (h : report.IsClosed settings.warningLimit .linker failure) :
    Accounts settings (report, .error failure) where
  orderly := h.toIsOrderly
  tells := by
    have hexplains := h.explains
    cases failure with
    | badAlignment alignment => exact absurd rfl (h.ne_badAlignment alignment)
    | _ => exact hexplains
  refused_iff := by
    refine iff_of_false ?_ hvalid
    rintro ⟨alignment, hfailure⟩
    exact h.ne_badAlignment alignment (Except.error.inj hfailure)

theorem accounts_succeeded {program : Program}
    (hvalid : ¬(settings.branchAlignment = 0 ∨ settings.branchAlignment % 2 ≠ 0))
    (h : report.IsOpen settings.warningLimit .linker) (hreport : program.report = report)
    (herrors : report.tally.errors = 0) : Accounts settings (report, .ok program) where
  orderly := h.toIsOrderly
  tells := by
    rw [h.errors_eq, count_eq_zero] at herrors
    refine ⟨hreport, fun d hmem ↦ ⟨herrors d hmem, h.ne_fatal d hmem⟩, ?_⟩
    intro bound hbound
    rw [← h.warnings_eq]
    exact h.warnings_lt bound hbound
  refused_iff := by
    refine iff_of_false ?_ hvalid
    rintro ⟨alignment, hfailure⟩
    cases hfailure

theorem accounts_assembleInto
    (hvalid : ¬(settings.branchAlignment = 0 ∨ settings.branchAlignment % 2 ≠ 0))
    (h : report.IsOpen settings.warningLimit .inclusion) (source : List SourceLine) :
    Accounts settings (assembleInto settings report source) := by
  obtain ⟨hzero, heven⟩ := not_or.1 hvalid
  have hends := assembleInto_ends hzero (not_not.1 heven) h source
  rcases hrun : assembleInto settings report source with ⟨last, failure | program⟩
  · rw [hrun] at hends
    exact accounts_failed hvalid hends
  · obtain ⟨hreport, herrors⟩ := report_of_assembleInto (congrArg Prod.snd hrun)
    rw [hrun] at hends hreport
    rw [hreport] at herrors
    exact accounts_succeeded hvalid hends hreport herrors

/-- Every run ends in one of six ways, and its report shows which. The tally counts the diagnostics,
which stand in the order of the passes. Settings are refused exactly for an alignment that is zero
or odd, before anything is recorded. A fatal diagnostic is the only one and the last, the warning
limit is met by the last diagnostic, errors are those of the checked passes, and a program comes
without errors and short of the limit. -/
theorem accounts_assemble (settings : Settings) :
    (∀ source, Accounts settings (assemble settings source)) ∧
      ∀ host path, Accounts settings (assembleFile settings host path) := by
  have hstart := isOpen_start settings.warningLimit .inclusion
  by_cases hvalid : settings.branchAlignment = 0 ∨ settings.branchAlignment % 2 ≠ 0
  · have hsettings : settings.validate = .error (.badAlignment settings.branchAlignment) :=
      if_pos hvalid
    constructor
    · intro source
      rw [assemble, hsettings]
      exact accounts_refused hvalid
    · intro host path
      rw [assembleFile, hsettings]
      exact accounts_refused hvalid
  · have hsettings : settings.validate = .ok () := if_neg hvalid
    constructor
    · intro source
      rw [assemble, hsettings]
      exact accounts_assembleInto hvalid hstart source
    · intro host path
      have hload := Inclusion.loadSource_ends hstart host settings.includeLimit path
      rw [assembleFile, hsettings]
      rcases hloaded : Inclusion.loadSource host settings.includeLimit path
        (start settings.warningLimit) with ⟨report, failure | source⟩
      · rw [hloaded] at hload
        have hclosed : report.IsClosed settings.warningLimit .inclusion failure := hload
        exact accounts_failed hvalid (hclosed.mono (by decide))
      · rw [hloaded] at hload
        exact accounts_assembleInto hvalid hload source

end Report

end Sequencer
