import Mathlib
import Sequencer.Proofs.Precedents
import Sequencer.Proofs.Reading

/-!
# Definitions moved to the front

A definition is read against the definitions before it, and nothing else that is read depends on
constants: operands are resolved only later, when all constants are known. So definitions may as
well stand in front of all other lines. The program is the same, and of the report only the line of
a warning about stranded flags may change.
-/

namespace Sequencer

/-- The line defines a constant. -/
def SourceLine.isDefinition (line : SourceLine) : Bool :=
  match (Statement.ofText line.text).body with
  | .definition _ _ => true
  | .instruction _ _ => false

/-- The definitions of a source, and then its other lines, each in their order. -/
def hoisted (source : List SourceLine) : List SourceLine :=
  source.filter SourceLine.isDefinition ++ source.filter fun line ↦ !line.isDefinition

/-- No definition stands on a line with a label. -/
def DefinesUnlabelled (source : List SourceLine) : Prop :=
  ∀ line ∈ source, line.isDefinition = true → (Statement.ofText line.text).label = none

namespace Reader

/-! ## Lines and constants -/

def withConstants (reader : Reader) (constants : Constants) : Reader := { reader with constants }

variable {reader next after : Reader} {line : SourceLine} {command : Option Command}

theorem label_withConstants (reader : Reader) (constants : Constants) (number : ℕ)
    (label : Option Text) :
    (reader.withConstants constants).label number label =
      (reader.label number label).withConstants constants := by
  cases label with
  | none => rfl
  | some name =>
    simp only [Reader.label, withConstants]
    split <;> rfl

theorem instruction_withConstants (reader : Reader) (constants : Constants) (number : ℕ)
    (flags : FlagSet) (tokens : List Text) :
    (reader.withConstants constants).instruction number flags tokens =
      ((reader.instruction number flags tokens).1.withConstants constants,
        (reader.instruction number flags tokens).2) := by
  cases tokens with
  | nil => rfl
  | cons token operands =>
    simp only [instruction, withConstants]
    split
    · rfl
    · split <;> rfl

/-- What is no definition is read whatever the constants, and leaves them alone. -/
theorem line_withConstants (hline : line.isDefinition = false) (reader : Reader)
    (constants : Constants) :
    (reader.withConstants constants).line line =
      ((reader.line line).1.withConstants constants, (reader.line line).2) := by
  cases hbody : (Statement.ofText line.text).body with
  | definition name expression => simp [SourceLine.isDefinition, hbody] at hline
  | instruction flags tokens =>
    simp only [Reader.line, hbody, label_withConstants, instruction_withConstants]

theorem constants_line (hline : line.isDefinition = false) (reader : Reader) :
    (reader.line line).1.constants = reader.constants := by
  have hsame := line_withConstants hline reader reader.constants
  exact congrArg (fun run ↦ run.1.constants) hsame

/-- A definition that leaves no error gives the constants the same new value wherever it is read
with the same constants, and changes nothing else. -/
theorem line_definition (hdefinition : line.isDefinition = true)
    (hlabel : (Statement.ofText line.text).label = none)
    (h : reader.line line = (next, .ok command))
    (herrors : next.report.tally.errors = reader.report.tally.errors) {other : Reader}
    (hsame : other.constants = reader.constants) :
    other.line line = (other.withConstants next.constants, .ok none) := by
  have hreads := reads_of_line h
  rw [hlabel] at hreads
  cases hbody : (Statement.ofText line.text).body with
  | instruction flags tokens => simp [SourceLine.isDefinition, hbody] at hdefinition
  | definition name expression =>
    rw [hbody] at hreads
    cases hreads with
    | define evaluate_eq define_eq =>
      have hvalue : other.constants.evaluate expression = _ := hsame ▸ evaluate_eq
      have hdefine : other.constants.define name _ = _ := hsame ▸ define_eq
      simp only [Reader.line, hlabel, hbody, Reader.label, definition, hvalue, hdefine]
      rfl
    | redefine => exact absurd herrors (Nat.succ_ne_self _)

/-- The definitions of a source that leaves no error, read without the other lines, give the same
constants; the other lines, read without the definitions, give the same commands and symbols. -/
theorem lines_separate {source : List SourceLine} {commands : List Command}
    (hunlabelled : DefinesUnlabelled source) (h : reader.lines source = (after, .ok commands))
    (herrors : after.report.tally.errors = reader.report.tally.errors) :
    (∀ other : Reader, other.constants = reader.constants →
      other.lines (source.filter SourceLine.isDefinition) =
        (other.withConstants after.constants, .ok [])) ∧
      ∀ constants, (reader.withConstants constants).lines
        (source.filter fun line ↦ !line.isDefinition) =
          (after.withConstants constants, .ok commands) := by
  -- along the source, each of the two runs passes over the lines of the other
  induction source generalizing reader commands with
  | nil =>
    cases h
    refine ⟨fun other hsame ↦ ?_, fun constants ↦ rfl⟩
    rw [← hsame]
    rfl
  | cons first rest ih =>
    obtain ⟨hfirst, hrest⟩ := List.forall_mem_cons.1 hunlabelled
    rcases hline : reader.line first with ⟨next, failure | command⟩
    · rw [lines_cons_error hline] at h
      cases h
    rw [lines_cons_ok hline] at h
    obtain ⟨hlast, hmap⟩ := Prod.mk.inj h
    obtain ⟨others, hothers, rfl⟩ := Except.map_eq_ok_iff.1 hmap
    have hlines : next.lines rest = (after, .ok others) := Prod.ext hlast hothers
    have hle := (addsErrors_of_line hline).errors_le
    have hle' := (addsErrors_of_lines hlines).errors_le
    obtain ⟨hdefinitions, hinstructions⟩ := ih hrest hlines (by omega)
    cases hkind : first.isDefinition with
    | true =>
      have hread {other : Reader} (hsame : other.constants = reader.constants) :
          other.line first = (other.withConstants next.constants, .ok none) :=
        line_definition hkind (hfirst hkind) hline (by omega) hsame
      obtain ⟨hnext, hcommand⟩ := Prod.mk.inj (hline.symm.trans (hread rfl))
      obtain rfl := Except.ok.inj hcommand
      refine ⟨fun other hsame ↦ ?_, fun constants ↦ ?_⟩
      · rw [List.filter_cons_of_pos hkind, lines_cons_ok (hread hsame),
          hdefinitions (other.withConstants next.constants) rfl]
        rfl
      · have hskip : reader.withConstants constants = next.withConstants constants := by
          rw [hnext]
          rfl
        rw [List.filter_cons_of_neg (by simp [hkind]), hskip, hinstructions]
        rfl
    | false =>
      have hconstants : next.constants = reader.constants := by
        have hkept := constants_line hkind reader
        rwa [hline] at hkept
      refine ⟨fun other hsame ↦ ?_, fun constants ↦ ?_⟩
      · rw [List.filter_cons_of_neg (by simp [hkind])]
        exact hdefinitions other (hsame.trans hconstants.symm)
      · have hread := line_withConstants hkind reader constants
        rw [hline] at hread
        rw [List.filter_cons_of_pos (by simp [hkind]), lines_cons_ok hread, hinstructions]
        rfl

/-- A source that leaves no error and the same source with its definitions in front are read to the
same end. -/
theorem lines_hoisted {source : List SourceLine} {commands : List Command}
    (hunlabelled : DefinesUnlabelled source) (h : reader.lines source = (after, .ok commands))
    (herrors : after.report.tally.errors = reader.report.tally.errors) :
    reader.lines (hoisted source) = (after, .ok commands) := by
  obtain ⟨hdefinitions, hinstructions⟩ := lines_separate hunlabelled h herrors
  rw [hoisted, lines_append (hdefinitions reader rfl), hinstructions]
  rfl

end Reader

/-! ## The warning about stranded flags -/

/-- The warning about flags that wait at the end of a source. -/
def strandedWarning (flags : FlagSet) (lastLine : Option ℕ) : Diagnostic where
  severity := .warning
  stage := .parser
  line := lastLine
  message := (ReadingFault.strandedFlags flags).message

/-- Two reports that differ at most in the line of the warning about stranded flags. -/
structure Report.Relined (lastLine otherLine : Option ℕ) (report other : Report) : Prop where
  tally_eq : other.tally = report.tally
  warningLimit_eq : other.warningLimit = report.warningLimit
  diagnostics : List.Forall₂ (fun d e ↦ e = d ∨ ∃ flags,
    d = strandedWarning flags lastLine ∧ e = strandedWarning flags otherLine)
    report.diagnostics other.diagnostics

namespace Reader

variable {reader after : Reader} {lastLine : Option ℕ}

/-- The check at the end passes at any line if it does at one. -/
theorem finish_relined (h : reader.finish lastLine = (after, .ok ())) (otherLine : Option ℕ) :
    ∃ report, reader.finish otherLine = ({ after with report }, .ok ()) ∧
      after.report.Relined lastLine otherLine report := by
  unfold finish at h ⊢
  split at h
  · next hempty =>
    obtain rfl := (Prod.mk.inj h).1
    refine ⟨reader.report, if_pos hempty, rfl, rfl, ?_⟩
    exact List.forall₂_same.2 fun _ _ ↦ .inl rfl
  · next hpending =>
    obtain ⟨hafter, hpassed⟩ := Prod.mk.inj h
    refine ⟨(reader.report.warn .parser otherLine
      (ReadingFault.strandedFlags reader.pending).message).1, ?_, ?_⟩
    · rw [if_neg hpending, ← hafter]
      exact Prod.ext rfl hpassed
    · rw [← hafter]
      refine ⟨rfl, rfl, List.rel_append (List.forall₂_same.2 fun _ _ ↦ .inl rfl) ?_⟩
      exact .cons (.inr ⟨reader.pending, rfl, rfl⟩) .nil

theorem read_hoisted {source : List SourceLine} {commands : List Command}
    (hunlabelled : DefinesUnlabelled source) (h : reader.read source = (after, .ok commands))
    (herrors : after.report.tally.errors = reader.report.tally.errors) :
    ∃ report, reader.read (hoisted source) = ({ after with report }, .ok commands) ∧
      after.report.Relined (source.getLast?.map SourceLine.number)
        ((hoisted source).getLast?.map SourceLine.number) report := by
  obtain ⟨last, hlines, hfinish⟩ := exists_finish_of_read h
  obtain ⟨report, hother, hrelined⟩ :=
    finish_relined hfinish ((hoisted source).getLast?.map SourceLine.number)
  refine ⟨report, ?_, hrelined⟩
  have hsame : last.report.tally.errors = reader.report.tally.errors := by
    rw [← herrors, ← errors_finish last (source.getLast?.map SourceLine.number), hfinish]
  unfold read
  rw [lines_hoisted hunlabelled hlines hsame]
  simp only [hother]
  rfl

end Reader

/-! ## Assembly -/

/-- The report without its diagnostics, but with its counts. -/
def Report.counts (report : Report) : Report := { report with diagnostics := [] }

theorem Report.counts_precededBy (report : Report) :
    report.counts.precededBy report.diagnostics = report := by
  simp [counts, precededBy]

theorem Report.Relined.counts_eq {lastLine otherLine : Option ℕ} {report other : Report}
    (h : report.Relined lastLine otherLine other) : other.counts = report.counts := by
  simp [counts, h.tally_eq, h.warningLimit_eq]

theorem Report.Relined.precededBy {lastLine otherLine : Option ℕ} {report other : Report}
    (h : report.Relined lastLine otherLine other) (later : Report) :
    (later.precededBy report.diagnostics).Relined lastLine otherLine
      (later.precededBy other.diagnostics) :=
  ⟨rfl, rfl, List.rel_append h.diagnostics (List.forall₂_same.2 fun _ _ ↦ .inl rfl)⟩

/-- The passes after reading, from a reader with a given report. -/
theorem assembleInto_of_read_precededBy {settings : Settings} {report : Report}
    {source : List SourceLine} {reader : Reader} {commands : List Command}
    (hread : ({ report } : Reader).read source = (reader, .ok commands)) :
    assembleInto settings report source =
      let draft := { reader with report := reader.report.counts }.draft commands
      let result := Draft.andThen (draft.validate reader.constants settings.branchAlignment)
        Draft.link
      (result.1.report.precededBy reader.report.diagnostics, result.2.map fun _ ↦
        (result.1.precededBy reader.report.diagnostics).program reader.constants) := by
  have hdraft : reader.draft commands =
      ({ reader with report := reader.report.counts }.draft commands).precededBy
        reader.report.diagnostics := by
    simp only [Reader.draft, Draft.precededBy, Report.counts_precededBy]
  rw [assembleInto_of_read hread, hdraft, Draft.validate_precededBy,
    Draft.andThen_precededBy _ (Draft.link_precededBy _)]
  rfl

/-- Definitions may stand in front of all other lines. -/
theorem assemble_hoisted {settings : Settings} {source : List SourceLine} {program : Program}
    (hunlabelled : DefinesUnlabelled source)
    (h : (assemble settings source).2 = .ok program) :
    ∃ other, (assemble settings (hoisted source)).2 = .ok other ∧
      other.commands = program.commands ∧ other.symbols = program.symbols ∧
      other.constants = program.constants ∧
      (assemble settings source).1.Relined (source.getLast?.map SourceLine.number)
        ((hoisted source).getLast?.map SourceLine.number)
        (assemble settings (hoisted source)).1 := by
  obtain ⟨hsettings, hassemble⟩ := assemble_eq_assembleInto h
  rw [hassemble] at h ⊢
  obtain ⟨reader, commands, validated, hread, hvalidate, -, -⟩ := exists_passes_of_assembleInto h
  have herrors : reader.report.tally.errors = 0 := (Draft.of_validate_eq_ok hvalidate).2.1
  obtain ⟨report, hother, hrelined⟩ := Reader.read_hoisted hunlabelled hread herrors
  have hhoisted : assemble settings (hoisted source) =
      assembleInto settings (.start settings.warningLimit) (hoisted source) := by
    simp only [assemble, hsettings]
  rw [assembleInto_of_read_precededBy hread] at h ⊢
  rw [hhoisted, assembleInto_of_read_precededBy hother]
  simp only [hrelined.counts_eq] at h ⊢
  -- from here on both runs are one, up to the diagnostics on record before it
  generalize Draft.andThen (Draft.validate _ _ _) Draft.link = result at h ⊢
  obtain ⟨last, failure | ⟨⟩⟩ := result
  · cases h
  · obtain rfl := Except.ok.inj h
    exact ⟨_, rfl, rfl, rfl, rfl, hrelined.precededBy last.report⟩

/-- Constants that are used before their line, flags that wait across a definition, and flags that
wait at the end, behind which stands one more definition. -/
theorem assemble_hoisted_stranded :
    ∃ source program other,
      source = SourceLine.ofText
        "@a: LD REG1, $n\n$m = 1\nA\n$n = $m + 1\nJUMP @a\nA\n$k = 3".toList ∧
      (hoisted source).map SourceLine.number = [2, 4, 7, 1, 3, 5, 6] ∧
      DefinesUnlabelled source ∧ (assemble {} source).2 = .ok program ∧
      (assemble {} (hoisted source)).2 = .ok other ∧ other.commands = program.commands ∧
      other.symbols = program.symbols ∧ other.constants = program.constants ∧
      (assemble {} source).1.Relined (some 7) (some 6) (assemble {} (hoisted source)).1 := by
  generalize hsource : SourceLine.ofText
    "@a: LD REG1, $n\n$m = 1\nA\n$n = $m + 1\nJUMP @a\nA\n$k = 3".toList = source
  have hnumbers : (hoisted source).map SourceLine.number = [2, 4, 7, 1, 3, 5, 6] := by
    rw [← hsource]
    decide +kernel
  have hlast : source.getLast?.map SourceLine.number = some 7 := by
    rw [← hsource]
    decide +kernel
  have hlast' : (hoisted source).getLast?.map SourceLine.number = some 6 := by
    rw [← List.getLast?_map, hnumbers]
    rfl
  have hunlabelled : DefinesUnlabelled source := by
    rw [← hsource]
    unfold DefinesUnlabelled
    decide +kernel
  have hprogram : (assemble {} source).2.toOption.map Program.addresses = some [0, 1] := by
    rw [← hsource]
    decide +kernel
  rcases hassemble : (assemble {} source).2 with failure | program
  · simp [hassemble, Except.toOption] at hprogram
  obtain ⟨other, hother, hcommands, hsymbols, hconstants, hrelined⟩ :=
    assemble_hoisted hunlabelled hassemble
  rw [hlast, hlast'] at hrelined
  exact ⟨source, program, other, rfl, hnumbers, hunlabelled, hassemble, hother, hcommands, hsymbols,
    hconstants, hrelined⟩

end Sequencer
