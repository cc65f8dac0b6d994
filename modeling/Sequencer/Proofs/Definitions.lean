import Mathlib
import Sequencer.Proofs.Growth
import Sequencer.Proofs.Reading

/-!
# Constants that solve their definitions

A definition is evaluated against the constants there are when its line is read. A name keeps the
value it was given first, in whatever letter case it is written, and an expression keeps its value
when names come to be known. So a source that is read without an error leaves constants under which
every one of its definitions is a true equation.
-/

namespace Sequencer

namespace Table

variable {α : Type} {table larger : Table α} {name : Text} {value : α}

theorem place_perm (name : Text) (value : α) (entries : List (Text × α)) :
    (place name value entries).Perm ((name, value) :: entries) := by
  induction entries with
  | nil => exact .refl _
  | cons entry rest ih =>
    rw [place]
    split
    · exact (ih.cons entry).trans (.swap _ _ rest)
    · exact .refl _

theorem keys_perm_of_define (h : table.define name value = .ok larger) :
    larger.keys.Perm (name :: table.keys) := by
  unfold define at h
  split at h
  · cases h
  · rw [← Except.ok.inj h]
    exact (place_perm name value table.entries).map Prod.fst

end Table

/-! ## Definitions one after the other -/

namespace Constants

/-- Give values to names in turn; a name that has a value keeps it. -/
def defineAll : Constants → List (Text × ℤ) → Constants
  | constants, [] => constants
  | constants, (name, value) :: rest =>
    match constants.define name value with
    | .ok larger => larger.defineAll rest
    | .error _ => constants.defineAll rest

variable {constants larger more : Constants} {name : Text} {value held : ℤ}

theorem of_define_eq_ok (h : constants.define name value = .ok larger) :
    constants.values.define (Text.upper name) value = .ok larger.values := by
  obtain ⟨values, hvalues, rfl⟩ := Except.map_eq_ok_iff.1 h
  exact hvalues

theorem value?_of_define_eq_error (h : constants.define name value = .error held) :
    constants.value? name = some held := by
  have hvalues : constants.values.define (Text.upper name) value = .error held := by
    unfold define at h
    cases hdefine : constants.values.define (Text.upper name) value with
    | ok values => simp [hdefine, Except.map] at h
    | error kept => simpa [hdefine, Except.map] using h
  exact Table.of_define_eq_error hvalues

theorem value?_of_define_eq_ok (h : constants.define name value = .ok larger) (other : Text) :
    larger.value? other =
      (constants.value? other).or
        (if Text.upper name = Text.upper other then some value else none) := by
  obtain ⟨hfresh, hget⟩ := Table.of_define_eq_ok (of_define_eq_ok h)
  by_cases hname : Text.upper other = Text.upper name
  · simp [value?, hget, hname, hfresh]
  · simp [value?, hget, hname, Ne.symm hname]

theorem extends_defineAll (constants : Constants) (calls : List (Text × ℤ)) :
    constants.values.Extends (constants.defineAll calls).values := by
  induction calls generalizing constants with
  | nil => exact .refl _
  | cons call rest ih =>
    obtain ⟨name, value⟩ := call
    rw [defineAll]
    split
    · next larger hdefine =>
      exact (Table.extends_of_define (of_define_eq_ok hdefine)).trans (ih larger)
    · exact ih constants

/-- A name has the value it had before, or else that of the first call for it. -/
theorem value?_defineAll (constants : Constants) (calls : List (Text × ℤ)) (name : Text) :
    (constants.defineAll calls).value? name =
      (constants.value? name).or
        ((calls.find? fun call ↦ Text.upper call.1 = Text.upper name).map Prod.snd) := by
  induction calls generalizing constants with
  | nil => simp [defineAll]
  | cons call rest ih =>
    obtain ⟨other, value⟩ := call
    rw [defineAll, List.find?_cons]
    by_cases hname : Text.upper other = Text.upper name
    · split
      · next larger hdefine =>
        rw [ih, value?_of_define_eq_ok hdefine]
        simp [hname]
      · next held hdefine =>
        -- the call is refused because the name, in another case perhaps, has a value
        have hheld : constants.value? name = some held := by
          rw [← value?_of_define_eq_error hdefine, value?, value?, hname]
        rw [ih, hheld]
        rfl
    · split
      · next larger hdefine =>
        rw [ih, value?_of_define_eq_ok hdefine]
        simp [hname]
      · rw [ih]
        simp [hname]

/-- The name of a definition has the value of its expression. -/
def Solves (constants : Constants) (definition : Text × Text) : Prop :=
  ∃ value, constants.value? definition.1 = some value ∧
    constants.evaluate definition.2 = .ok value

theorem Solves.mono {definition : Text × Text} (h : constants.Solves definition)
    (hmore : constants.values.Extends more.values) : more.Solves definition := by
  obtain ⟨value, hvalue, hevaluate⟩ := h
  exact ⟨value, hmore _ _ hvalue, Operand.evaluate_of_extends hmore hevaluate⟩

/-- A definition that is entered is solved from then on. -/
theorem solves_of_define {expression : Text} (hvalue : constants.evaluate expression = .ok value)
    (hdefine : constants.define name value = .ok larger) : larger.Solves (name, expression) := by
  obtain ⟨-, hget⟩ := Table.of_define_eq_ok (of_define_eq_ok hdefine)
  refine ⟨value, (hget _).trans (if_pos rfl), ?_⟩
  exact Operand.evaluate_of_extends (Table.extends_of_define (of_define_eq_ok hdefine)) hvalue

end Constants

/-! ## The definitions of a source -/

/-- The name and the expression of a definition. -/
def Body.definition? : Body → Option (Text × Text)
  | .definition name expression => some (name, expression)
  | .instruction _ _ => none

namespace SourceLine

def definition? (line : SourceLine) : Option (Text × Text) :=
  (Statement.ofText line.text).body.definition?

/-- The definitions among some lines, in their order. -/
def definitions (source : List SourceLine) : List (Text × Text) := source.filterMap definition?

/-- The names that have a value at the end of a source: the one that every source starts from, and
those it defines. -/
def knownNames (source : List SourceLine) : List Text :=
  "MAX_NOOP".toList :: (definitions source).map fun definition ↦ Text.upper definition.1

end SourceLine

namespace Reader

variable {reader next after : Reader} {report : Report}

theorem report_errors_finish (reader : Reader) (lastLine : Option ℕ) :
    (reader.finish lastLine).1.report.errors = reader.report.errors := by
  rw [Report.errors, diagnostics_finish, List.filter_append, ← Report.errors]
  split <;> simp

/-- The constants after some lines: the known names have values, and all definitions are solved. -/
structure SolvesLines (seen : List SourceLine) (reader : Reader) : Prop where
  keys_perm : reader.constants.values.keys.Perm (SourceLine.knownNames seen)
  initial : reader.constants.values.get? "MAX_NOOP".toList = some 255
  solves : ∀ definition ∈ SourceLine.definitions seen, reader.constants.Solves definition

theorem solvesLines_start (report : Report) : SolvesLines [] ({ report } : Reader) :=
  ⟨.refl _, rfl, by simp [SourceLine.definitions]⟩

/-- A body that is read without a further error either is no definition and leaves the constants
alone, or it enters its constant. -/
theorem Reads.constants_cases {number : ℕ} {body : Body} {command : Option Command}
    (h : reader.Reads number body next command)
    (hclean : next.report.errors = reader.report.errors) :
    (body.definition? = none ∧ next.constants = reader.constants) ∨
      ∃ name expression value, body.definition? = some (name, expression) ∧
        reader.constants.evaluate expression = .ok value ∧
        reader.constants.define name value = .ok next.constants := by
  cases h with
  | define evaluate_eq define_eq => exact .inr ⟨_, _, _, rfl, evaluate_eq, define_eq⟩
  | redefine =>
    -- a definition that is refused is one error more
    simp [Reader.error, Report.errors, Report.error, Report.record] at hclean
  | flags => exact .inl ⟨rfl, rfl⟩
  | unknown => exact .inl ⟨rfl, rfl⟩
  | excess => exact .inl ⟨rfl, rfl⟩
  | command => exact .inl ⟨rfl, rfl⟩

theorem constants_of_line {line : SourceLine} {command : Option Command}
    (h : reader.line line = (next, .ok command))
    (hclean : next.report.errors = reader.report.errors) :
    (line.definition? = none ∧ next.constants = reader.constants) ∨
      ∃ name expression value, line.definition? = some (name, expression) ∧
        reader.constants.evaluate expression = .ok value ∧
        reader.constants.define name value = .ok next.constants := by
  have hlabel := reader.readsLabel_label line.number (Statement.ofText line.text).label
  have hreads := reads_of_line h
  have hsplit := hlabel.addsErrors.keeps_errors
  have hsame := hreads.addsErrors.keeps_errors
  rw [hclean] at hsame
  rw [← hlabel.constants_eq]
  exact hreads.constants_cases (hclean.trans (hsplit.eq_of_length_le hsame.length_le))

theorem SolvesLines.of_line {seen : List SourceLine} {line : SourceLine}
    {command : Option Command} (h : SolvesLines seen reader)
    (hline : reader.line line = (next, .ok command))
    (hclean : next.report.errors = reader.report.errors) : SolvesLines (seen ++ [line]) next := by
  obtain ⟨hnone, hsame⟩ | ⟨name, expression, value, hsome, hvalue, hdefine⟩ :=
    constants_of_line hline hclean
  · have hdefinitions : SourceLine.definitions (seen ++ [line]) = SourceLine.definitions seen := by
      simp [SourceLine.definitions, hnone]
    exact ⟨by rw [SourceLine.knownNames, hdefinitions, hsame]; exact h.keys_perm,
      hsame ▸ h.initial, by rw [hdefinitions, hsame]; exact h.solves⟩
  · have hdefinitions : SourceLine.definitions (seen ++ [line]) =
        SourceLine.definitions seen ++ [(name, expression)] := by
      simp [SourceLine.definitions, hsome]
    have htable := Constants.of_define_eq_ok hdefine
    have hextends := Table.extends_of_define htable
    refine ⟨?_, hextends _ _ h.initial, fun definition hmem ↦ ?_⟩
    · have hnames : SourceLine.knownNames (seen ++ [line]) =
          SourceLine.knownNames seen ++ [Text.upper name] := by
        simp [SourceLine.knownNames, hdefinitions]
      have hkeys := (Table.keys_perm_of_define htable).trans (h.keys_perm.cons _)
      rw [hnames]
      exact hkeys.trans (List.perm_append_singleton _ _).symm
    · rw [hdefinitions, List.mem_append, List.mem_singleton] at hmem
      rcases hmem with hmem | rfl
      · exact (h.solves definition hmem).mono hextends
      · exact Constants.solves_of_define hvalue hdefine

/-- What is known between two lines, when `seen` was read: the errors from the start are still
there, and if none came to them, then all definitions are solved. -/
structure SolvesIfClean (start : Report) (seen : List SourceLine) (reader : Reader) : Prop where
  keeps_errors : start.errors <+: reader.report.errors
  solves : reader.report.errors = start.errors → SolvesLines seen reader

theorem solvesIfClean_start (report : Report) :
    SolvesIfClean report [] ({ report } : Reader) :=
  ⟨List.prefix_rfl, fun _ ↦ solvesLines_start report⟩

theorem SolvesIfClean.of_line {seen : List SourceLine} {line : SourceLine}
    {command : Option Command} (h : SolvesIfClean report seen reader)
    (hline : reader.line line = (next, .ok command)) :
    SolvesIfClean report (seen ++ [line]) next := by
  have hadds := (addsErrors_of_line hline).keeps_errors
  refine ⟨h.keeps_errors.trans hadds, fun hclean ↦ ?_⟩
  -- errors only come to a report, so there was none before the line if there is none behind it
  rw [hclean] at hadds
  have hsame := h.keeps_errors.eq_of_length_le hadds.length_le
  exact (h.solves hsame.symm).of_line hline (hclean.trans hsame)

theorem solvesIfClean_of_lines {source : List SourceLine} {commands : List Command}
    (h : ({ report } : Reader).lines source = (after, .ok commands)) :
    SolvesIfClean report source after := by
  refine lines_invariant (fun seen _ now ↦ SolvesIfClean report seen now)
    (solvesIfClean_start report) ?_ h
  intro seen line written before next command _ hbefore hline
  exact hbefore.of_line hline

theorem solvesLines_of_read {source : List SourceLine} {commands : List Command}
    (h : ({ report } : Reader).read source = (after, .ok commands))
    (hclean : after.report.errors = report.errors) : SolvesLines source after := by
  obtain ⟨last, hlines, hfinish⟩ := exists_finish_of_read h
  have herrors := last.report_errors_finish (source.getLast?.map SourceLine.number)
  have htables := last.finish_tables (source.getLast?.map SourceLine.number)
  rw [hfinish] at herrors htables
  have hsolves := (solvesIfClean_of_lines hlines).solves (herrors.symm.trans hclean)
  exact ⟨htables.1 ▸ hsolves.keys_perm, htables.1 ▸ hsolves.initial, htables.1 ▸ hsolves.solves⟩

/-- A source that is read without an error leaves values for exactly the known names, each defined
once, and under them every definition is a true equation. Whatever is defined later, expressions
keep their values and names the value of their first definition. -/
theorem read_solves_definitions :
    (∀ (report : Report) (source : List SourceLine) (after : Reader) (commands : List Command),
      ({ report } : Reader).read source = (after, .ok commands) →
      after.report.errors = report.errors →
        after.constants.value? "MAX_NOOP".toList = some 255 ∧
        after.constants.values.keys.Perm (SourceLine.knownNames source) ∧
        (SourceLine.knownNames source).Nodup ∧
        ∀ definition ∈ SourceLine.definitions source, after.constants.Solves definition) ∧
    ∀ (constants : Constants) (calls : List (Text × ℤ)),
      (∀ expression value, constants.evaluate expression = .ok value →
        (constants.defineAll calls).evaluate expression = .ok value) ∧
      ∀ name, (constants.defineAll calls).value? name =
        (constants.value? name).or
          ((calls.find? fun call ↦ Text.upper call.1 = Text.upper name).map Prod.snd) := by
  constructor
  · intro report source after commands hread hclean
    have hsolves := solvesLines_of_read hread hclean
    refine ⟨hsolves.initial, hsolves.keys_perm, ?_, hsolves.solves⟩
    exact hsolves.keys_perm.nodup_iff.1 (Table.nodup_keys _)
  · intro constants calls
    have hextends := constants.extends_defineAll calls
    exact ⟨fun _ _ hvalue ↦ Operand.evaluate_of_extends hextends hvalue,
      constants.value?_defineAll calls⟩

/-- Definitions in several letter cases that build on each other and on the constant of every
source, one of them behind a label, and further calls that repeat a name in another case. -/
theorem read_solves_definitions_chained :
    ∃ (source : List SourceLine) (after : Reader) (commands : List Command),
      source = SourceLine.ofText
        "$half = $max_noop / 2\nWAIT $Half\n@go: $Top=($HALF + 1) * 2 # 256\n".toList ∧
      ({ report := .start none } : Reader).read source = (after, .ok commands) ∧
      after.report.errors = [] ∧
      after.constants.values.keys.Perm ["MAX_NOOP".toList, "HALF".toList, "TOP".toList] ∧
      after.constants.Solves ("half".toList, "$max_noop / 2".toList) ∧
      after.constants.Solves ("Top".toList, "($HALF + 1) * 2".toList) ∧
      let calls := [("tOP".toList, 1), ("new".toList, 2), ("NEW".toList, 3)]
      (after.constants.defineAll calls).evaluate "$Top - $half".toList = .ok 129 ∧
      (after.constants.defineAll calls).value? "nEw".toList = some 2 := by
  generalize hsource : SourceLine.ofText
    "$half = $max_noop / 2\nWAIT $Half\n@go: $Top=($HALF + 1) * 2 # 256\n".toList = source
  have hdefinitions : SourceLine.definitions source =
      [("half".toList, "$max_noop / 2".toList), ("Top".toList, "($HALF + 1) * 2".toList)] := by
    rw [← hsource]
    decide +kernel
  have hrun : (({ report := .start none } : Reader).read source).2.isOk = true ∧
      (({ report := .start none } : Reader).read source).1.report.errors = [] ∧
      (({ report := .start none } : Reader).read source).1.constants.evaluate
        "$Top - $half".toList = .ok 129 ∧
      (({ report := .start none } : Reader).read source).1.constants.value?
        "nEw".toList = none := by
    rw [← hsource]
    decide +kernel
  rcases hread : ({ report := .start none } : Reader).read source with ⟨after, failure | commands⟩
  · rw [hread] at hrun
    cases hrun.1
  rw [hread] at hrun
  obtain ⟨-, hclean, hvalue, hfresh⟩ := hrun
  obtain ⟨hsource, hlater⟩ := read_solves_definitions
  obtain ⟨-, hkeys, -, hsolves⟩ := hsource _ _ _ _ hread hclean
  obtain ⟨hkept, hfirst⟩ :=
    hlater after.constants [("tOP".toList, 1), ("new".toList, 2), ("NEW".toList, 3)]
  refine ⟨source, after, commands, rfl, hread, hclean, ?_, ?_, ?_, hkept _ _ hvalue, ?_⟩
  · rw [SourceLine.knownNames, hdefinitions] at hkeys
    exact hkeys
  · exact hsolves _ (by simp [hdefinitions])
  · exact hsolves _ (by simp [hdefinitions])
  · rw [hfirst, hfresh]
    decide +kernel

end Reader

end Sequencer
