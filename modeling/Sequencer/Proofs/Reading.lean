import Mathlib
import Sequencer.Source.Reading
import Sequencer.Proofs.Except
import Sequencer.Proofs.Report
import Sequencer.Proofs.Table

/-!
# What reading adds to the tables

A line may add an entry to a table, and it never changes one. So the tables after a source hold all
that they held before it, and a symbol that a line defines has neither an alignment nor an address
of its own yet. Reading two sources one after the other is reading them as one.
-/

namespace Sequencer

namespace Table

variable {α : Type} {table larger largest : Table α}

/-- All that one table holds, another holds too. -/
def Extends (table larger : Table α) : Prop :=
  ∀ name value, table.get? name = some value → larger.get? name = some value

theorem Extends.refl (table : Table α) : table.Extends table := fun _ _ h ↦ h

theorem Extends.trans (first : table.Extends larger) (second : larger.Extends largest) :
    table.Extends largest := fun name value h ↦ second name value (first name value h)

/-- Only a fresh name can be defined. -/
theorem of_define_eq_ok {name : Text} {value : α} (h : table.define name value = .ok larger) :
    table.get? name = none ∧
      ∀ other, larger.get? other = if other = name then some value else table.get? other := by
  unfold define at h
  split at h
  · cases h
  · next hfresh =>
    rw [← Except.ok.inj h]
    exact ⟨hfresh, lookup_place (lookup_eq_none.1 hfresh) value⟩

/-- A name that is known keeps what it has. -/
theorem of_define_eq_error {name : Text} {value held : α}
    (h : table.define name value = .error held) : table.get? name = some held := by
  unfold define at h
  split at h
  · next hheld =>
    rw [← Except.error.inj h]
    exact hheld
  · cases h

theorem extends_of_define {name : Text} {value : α} (h : table.define name value = .ok larger) :
    table.Extends larger := by
  obtain ⟨hfresh, hget⟩ := of_define_eq_ok h
  intro other held hheld
  have hother : other ≠ name := by
    intro heq
    rw [heq, hfresh] at hheld
    cases hheld
  rw [hget, if_neg hother, hheld]

end Table

/-- A symbol as its label leaves it. -/
def Symbol.IsFresh (symbol : Symbol) : Prop := symbol.alignment = 1 ∧ symbol.address = none

namespace Reader

/-- How the tables stand after some lines: nothing in them was changed, and the symbols that came to
them are fresh. -/
structure Extends (before after : Reader) : Prop where
  constants : before.constants.values.Extends after.constants.values
  symbols : before.symbols.Extends after.symbols
  fresh : ∀ name symbol, after.symbols.get? name = some symbol →
    before.symbols.get? name = some symbol ∨ symbol.IsFresh

variable {before between after reader : Reader}

/-- What leaves the tables alone extends them. -/
theorem Extends.of_eq (hconstants : after.constants = before.constants)
    (hsymbols : after.symbols = before.symbols) : before.Extends after where
  constants := hconstants ▸ .refl before.constants.values
  symbols := hsymbols ▸ .refl before.symbols
  fresh := fun _ _ h ↦ .inl (hsymbols ▸ h)

theorem Extends.trans (first : before.Extends between) (second : between.Extends after) :
    before.Extends after where
  constants := first.constants.trans second.constants
  symbols := first.symbols.trans second.symbols
  fresh := fun name symbol h ↦ (second.fresh name symbol h).elim (first.fresh name symbol) .inr

theorem extends_label (reader : Reader) (line : ℕ) (label : Option Text) :
    reader.Extends (reader.label line label) := by
  unfold Reader.label
  split
  · exact .of_eq rfl rfl
  · split
    · next symbols hdefine =>
      have hget := (Table.of_define_eq_ok hdefine).2
      refine ⟨.refl _, Table.extends_of_define hdefine, fun name symbol hsymbol ↦ ?_⟩
      rw [hget] at hsymbol
      split at hsymbol
      · rw [← Option.some.inj hsymbol]
        exact .inr ⟨rfl, rfl⟩
      · exact .inl hsymbol
    · exact .of_eq rfl rfl

theorem extends_definition (reader : Reader) (line : ℕ) (name expression : Text) :
    reader.Extends (reader.definition line name expression).1 := by
  unfold definition
  split
  · exact .of_eq rfl rfl
  · split
    · next constants hdefine =>
      obtain ⟨values, hvalues, rfl⟩ := Except.map_eq_ok_iff.1 hdefine
      exact ⟨Table.extends_of_define hvalues, .refl _, fun _ _ h ↦ .inl h⟩
    · exact .of_eq rfl rfl

theorem extends_instruction (reader : Reader) (line : ℕ) (flags : FlagSet) (tokens : List Text) :
    reader.Extends (reader.instruction line flags tokens).1 := by
  unfold instruction
  split
  · exact .of_eq rfl rfl
  · dsimp only
    split
    · exact .of_eq rfl rfl
    · split <;> exact .of_eq rfl rfl

theorem extends_line (reader : Reader) (source : SourceLine) :
    reader.Extends (reader.line source).1 := by
  unfold line
  dsimp only
  apply (extends_label reader source.number (Statement.ofText source.text).label).trans
  split
  · exact extends_definition _ _ _ _
  · exact extends_instruction _ _ _ _

theorem lines_cons_ok {first : SourceLine} {command : Option Command}
    (h : reader.line first = (between, .ok command)) (rest : List SourceLine) :
    reader.lines (first :: rest) =
      ((between.lines rest).1, (between.lines rest).2.map (command.toList ++ ·)) := by
  rw [lines, h]

theorem lines_cons_error {first : SourceLine} {failure : Failure}
    (h : reader.line first = (between, .error failure)) (rest : List SourceLine) :
    reader.lines (first :: rest) = (between, .error failure) := by
  rw [lines, h]

theorem extends_lines (reader : Reader) (source : List SourceLine) :
    reader.Extends (reader.lines source).1 := by
  induction source generalizing reader with
  | nil => exact .of_eq rfl rfl
  | cons first rest ih =>
    have hfirst := extends_line reader first
    rcases hline : reader.line first with ⟨between, failure | command⟩
    · rw [hline] at hfirst
      rw [lines_cons_error hline]
      exact hfirst
    · rw [hline] at hfirst
      rw [lines_cons_ok hline]
      exact hfirst.trans (ih between)

/-- What a label does to a reader, by whether its name is known. -/
inductive ReadsLabel (reader : Reader) (number : ℕ) : Option Text → Reader → Prop where
  | none : ReadsLabel reader number none reader
  | fresh {name : Text} {symbols : Symbols} (unknown : reader.symbols.get? name = .none)
      (get?_eq : ∀ other, symbols.get? other =
        if other = name then some { commandIndex := reader.count, line := number }
        else reader.symbols.get? other) :
      ReadsLabel reader number (some name) { reader with symbols }
  | repeated {name : Text} {first : Symbol} (known : reader.symbols.get? name = some first) :
      ReadsLabel reader number (some name) (reader.error number (.duplicateSymbol name first.line))

theorem readsLabel_label (reader : Reader) (number : ℕ) (label : Option Text) :
    reader.ReadsLabel number label (reader.label number label) := by
  cases label with
  | none => exact .none
  | some name =>
    simp only [Reader.label]
    split
    · next hdefine =>
      obtain ⟨hunknown, hget⟩ := Table.of_define_eq_ok hdefine
      exact .fresh hunknown hget
    · next hdefine => exact .repeated (Table.of_define_eq_error hdefine)

namespace ReadsLabel

variable {number : ℕ} {label : Option Text}

theorem count_eq (h : reader.ReadsLabel number label after) : after.count = reader.count := by
  cases h <;> rfl

theorem pending_eq (h : reader.ReadsLabel number label after) :
    after.pending = reader.pending := by
  cases h <;> rfl

theorem constants_eq (h : reader.ReadsLabel number label after) :
    after.constants = reader.constants := by
  cases h <;> rfl

theorem addsErrors (h : reader.ReadsLabel number label after) :
    reader.report.AddsErrors after.report := by
  cases h with
  | none => exact .refl _
  | fresh => exact .refl _
  | repeated => exact reader.report.addsErrors_error _ _ _

end ReadsLabel

/-- What the body of a line does to a reader that goes on, and the command it gives. -/
inductive Reads (reader : Reader) (number : ℕ) : Body → Reader → Option Command → Prop where
  | define {name expression : Text} {value : ℤ} {constants : Constants}
      (evaluate_eq : reader.constants.evaluate expression = .ok value)
      (define_eq : reader.constants.define name value = .ok constants) :
      Reads reader number (.definition name expression) { reader with constants } none
  | redefine {name expression : Text} {value kept : ℤ}
      (evaluate_eq : reader.constants.evaluate expression = .ok value)
      (define_eq : reader.constants.define name value = .error kept) :
      Reads reader number (.definition name expression)
        (reader.error number (.duplicateConstant name kept)) none
  | flags {flags : FlagSet} : Reads reader number (.instruction flags [])
      { reader with pending := reader.pending.union flags } none
  | unknown {flags : FlagSet} {token : Text} {operands : List Text}
      (opcode_eq : Opcode.ofToken? token = none) :
      Reads reader number (.instruction flags (token :: operands))
        ({ reader with pending := .empty }.error number (.unknownOpcode token)) none
  | excess {flags : FlagSet} {token : Text} {operands : List Text} {opcode : Opcode}
      (opcode_eq : Opcode.ofToken? token = some opcode)
      (lt_length : maxOperands < operands.length) :
      Reads reader number (.instruction flags (token :: operands))
        ({ reader with pending := .empty }.error number (.tooManyOperands operands)) none
  | command {flags : FlagSet} {token : Text} {operands : List Text} {opcode : Opcode}
      (opcode_eq : Opcode.ofToken? token = some opcode)
      (length_le : operands.length ≤ maxOperands) :
      Reads reader number (.instruction flags (token :: operands))
        { reader with pending := .empty, count := reader.count + 1 }
        (some { flags := reader.pending.union flags, opcode, rawOperands := operands,
                index := reader.count, line := number })

theorem reads_of_definition {number : ℕ} {name expression : Text} {command : Option Command}
    (h : reader.definition number name expression = (after, .ok command)) :
    reader.Reads number (.definition name expression) after command := by
  unfold definition at h
  split at h
  · cases h
  · next hvalue =>
    split at h
    · next hdefine =>
      cases h
      exact .define hvalue hdefine
    · next hdefine =>
      cases h
      exact .redefine hvalue hdefine

theorem reads_instruction (reader : Reader) (number : ℕ) (flags : FlagSet) (tokens : List Text) :
    reader.Reads number (.instruction flags tokens) (reader.instruction number flags tokens).1
      (reader.instruction number flags tokens).2 := by
  cases tokens with
  | nil => exact .flags
  | cons token operands =>
    simp only [instruction]
    cases hopcode : Opcode.ofToken? token with
    | none => exact .unknown hopcode
    | some opcode =>
      by_cases hexcess : maxOperands < operands.length
      · simp only [if_pos hexcess]
        exact .excess hopcode hexcess
      · simp only [if_neg hexcess]
        exact .command hopcode (Nat.le_of_not_lt hexcess)

/-- A line that is read labels what follows, and then its body is read. -/
theorem reads_of_line {source : SourceLine} {command : Option Command}
    (h : reader.line source = (after, .ok command)) :
    (reader.label source.number (Statement.ofText source.text).label).Reads source.number
      (Statement.ofText source.text).body after command := by
  unfold line at h
  dsimp only at h
  split at h
  · next hbody =>
    rw [hbody]
    exact reads_of_definition h
  · next hbody =>
    rw [hbody]
    cases h
    exact reads_instruction _ _ _ _

/-- What the body of a line leaves of the symbols, the count and the commands. -/
theorem Reads.command_cases {number : ℕ} {body : Body} {command : Option Command}
    (h : reader.Reads number body after command) :
    after.symbols = reader.symbols ∧ after.count = reader.count + command.toList.length ∧
      ∀ c ∈ command, c.index = reader.count ∧ c.line = number := by
  cases h <;> refine ⟨rfl, rfl, ?_⟩ <;> simp

theorem Reads.addsErrors {number : ℕ} {body : Body} {command : Option Command}
    (h : reader.Reads number body after command) : reader.report.AddsErrors after.report := by
  cases h with
  | define => exact .refl _
  | redefine => exact reader.report.addsErrors_error _ _ _
  | flags => exact .refl _
  | unknown => exact reader.report.addsErrors_error _ _ _
  | excess => exact reader.report.addsErrors_error _ _ _
  | command => exact .refl _

theorem addsErrors_of_line {source : SourceLine} {command : Option Command}
    (h : reader.line source = (after, .ok command)) : reader.report.AddsErrors after.report :=
  (reader.readsLabel_label _ _).addsErrors.trans (reads_of_line h).addsErrors

/-- What holds at the start, and is kept by every line that is read, holds at the end. -/
theorem lines_invariant {source : List SourceLine} {commands : List Command}
    (Holds : List SourceLine → List Command → Reader → Prop) (hstart : Holds [] [] reader)
    (hstep : ∀ seen line written before next command, seen ++ [line] <+: source →
      Holds seen written before → before.line line = (next, .ok command) →
        Holds (seen ++ [line]) (written ++ command.toList) next)
    (h : reader.lines source = (after, .ok commands)) : Holds source commands after := by
  suffices hrun : ∀ rest seen written before more, seen ++ rest = source →
      Holds seen written before → before.lines rest = (after, .ok more) →
        Holds source (written ++ more) after from
    hrun source [] [] reader commands rfl hstart h
  intro rest
  induction rest with
  | nil =>
    intro seen written before more hseen hholds hlines
    cases hlines
    rw [← hseen, List.append_nil, List.append_nil]
    exact hholds
  | cons line rest ih =>
    intro seen written before more hseen hholds hlines
    rcases hline : before.line line with ⟨next, failure | command⟩
    · rw [lines_cons_error hline] at hlines
      cases hlines
    · rw [lines_cons_ok hline] at hlines
      obtain ⟨hlast, hmap⟩ := Prod.mk.inj hlines
      obtain ⟨others, hothers, rfl⟩ := Except.map_eq_ok_iff.1 hmap
      have hsplit : seen ++ [line] ++ rest = source := by simp [hseen]
      rw [← List.append_assoc]
      apply ih (seen ++ [line]) _ next others hsplit _ (Prod.ext hlast hothers)
      exact hstep seen line written before next command ⟨rest, hsplit⟩ hholds hline

/-- Lines that are read record errors only. -/
theorem addsErrors_of_lines {source : List SourceLine} {commands : List Command}
    (h : reader.lines source = (after, .ok commands)) :
    reader.report.AddsErrors after.report := by
  refine lines_invariant (fun _ _ now ↦ reader.report.AddsErrors now.report) (.refl _) ?_ h
  intro seen line written before next command _ hadds hline
  exact hadds.trans (addsErrors_of_line hline)

/-- Reading on after some lines is reading all of them. -/
theorem lines_append {front : List SourceLine} {commands : List Command}
    (h : reader.lines front = (between, .ok commands)) (back : List SourceLine) :
    reader.lines (front ++ back) =
      ((between.lines back).1, (between.lines back).2.map (commands ++ ·)) := by
  induction front generalizing reader commands with
  | nil =>
    obtain ⟨rfl, hnil⟩ := Prod.mk.inj h
    rw [← Except.ok.inj hnil, List.nil_append]
    rcases reader.lines back with ⟨last, failure | more⟩ <;> rfl
  | cons first rest ih =>
    rcases hline : reader.line first with ⟨next, failure | command⟩
    · rw [lines_cons_error hline] at h
      cases h
    · rw [lines_cons_ok hline] at h
      obtain ⟨hlast, hmap⟩ := Prod.mk.inj h
      obtain ⟨more, hmore, rfl⟩ := Except.map_eq_ok_iff.1 hmap
      have hrest : next.lines rest = (between, .ok more) := Prod.ext hlast hmore
      rw [List.cons_append, lines_cons_ok hline, ih hrest]
      rcases between.lines back with ⟨last, failure | others⟩
      · rfl
      · simp only [Except.map, List.append_assoc]

/-- Flags that still wait at the end are all that the check there speaks of. -/
theorem diagnostics_finish (reader : Reader) (lastLine : Option ℕ) :
    (reader.finish lastLine).1.report.diagnostics = reader.report.diagnostics ++
      if reader.pending.isEmpty then [] else
        [⟨.warning, .parser, lastLine, (ReadingFault.strandedFlags reader.pending).message⟩] := by
  unfold finish
  split
  · exact (List.append_nil _).symm
  · rfl

theorem finish_tables (reader : Reader) (lastLine : Option ℕ) :
    (reader.finish lastLine).1.constants = reader.constants ∧
      (reader.finish lastLine).1.symbols = reader.symbols := by
  unfold finish
  split <;> exact ⟨rfl, rfl⟩

theorem errors_finish (reader : Reader) (lastLine : Option ℕ) :
    (reader.finish lastLine).1.report.tally.errors = reader.report.tally.errors := by
  unfold finish
  split <;> rfl

/-- A source that is read has been read line by line, and the check at its end let it pass. -/
theorem exists_finish_of_read {source : List SourceLine} {commands : List Command}
    (h : reader.read source = (after, .ok commands)) :
    ∃ last, reader.lines source = (last, .ok commands) ∧
      last.finish (source.getLast?.map SourceLine.number) = (after, .ok ()) := by
  unfold read at h
  rcases hlines : reader.lines source with ⟨last, failure | found⟩
  · rw [hlines] at h
    cases h
  · rw [hlines] at h
    obtain ⟨rfl, hcommands⟩ := Prod.mk.inj h
    obtain ⟨_, hpassed, rfl⟩ := Except.map_eq_ok_iff.1 hcommands
    exact ⟨last, rfl, Prod.ext rfl hpassed⟩

/-- The check at the end of a source leaves the tables alone. -/
theorem exists_lines_of_read {source : List SourceLine} {commands : List Command}
    (h : reader.read source = (after, .ok commands)) :
    ∃ last, reader.lines source = (last, .ok commands) ∧ after.constants = last.constants ∧
      after.symbols = last.symbols := by
  obtain ⟨last, hlines, hfinish⟩ := exists_finish_of_read h
  have htables := last.finish_tables (source.getLast?.map SourceLine.number)
  rw [hfinish] at htables
  exact ⟨last, hlines, htables⟩

end Reader

end Sequencer
