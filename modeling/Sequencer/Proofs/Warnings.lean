import Mathlib
import Sequencer.Proofs.Gathering
import Sequencer.Proofs.ProgramLayout
import Sequencer.Proofs.RunOutcome

/-!
# What the warnings of a program are about

A run that gives a program has recorded warnings and nothing else. Reading warns once if flags are
left behind the last mnemonic. Linking warns once for each symbol without a command, and once for
each command with a flag that its format has no letter for. Such a flag has no part in the word.
-/

namespace Sequencer

/-! ## Flags without a letter -/

theorem FlagSet.isEmpty_eq_false_iff {flags : FlagSet} :
    flags.isEmpty = false ↔ ∃ flag, flags.contains flag = true := by
  constructor
  · intro hne
    by_contra hnone
    have hempty : flags = .empty := by
      refine FlagSet.ext_contains fun flag ↦ ?_
      simpa using fun hflag ↦ hnone ⟨flag, hflag⟩
    rw [hempty] at hne
    cases hne
  · rintro ⟨flag, hflag⟩
    rw [isEmpty, decide_eq_false_iff_not]
    rintro rfl
    simp at hflag

namespace Command

/-- The command has a flag that the format of its operation has no letter for. -/
def HasStrayFlag (command : Command) : Prop :=
  ∃ op flag, command.op? = some op ∧ command.flags.contains flag = true ∧
    ∀ letter ∈ op.format.flags, Flag.ofLetter? letter ≠ some flag

theorem hasStrayFlag_iff {command : Command} :
    command.HasStrayFlag ↔ command.droppedFlags.isEmpty = false := by
  unfold HasStrayFlag droppedFlags
  rw [FlagSet.isEmpty_eq_false_iff]
  cases command.op? with
  | none => simp
  | some op => simp [FlagSet.contains_ofLetters]

instance (command : Command) : Decidable command.HasStrayFlag :=
  decidable_of_iff _ hasStrayFlag_iff.symm

end Command

/-- Encoding looks at no flag that the format has no letter for. -/
theorem Format.encode_inter (format : Format) (register : UInt16) (flags : FlagSet)
    (value : UInt16) :
    format.encode register (flags.inter (.ofLetters format.flags)) value =
      format.encode register flags value := by
  have hfield : Machine.Field.ofFlags format.flags (flags.inter (.ofLetters format.flags)) =
      .ofFlags format.flags flags := by
    unfold Machine.Field.ofFlags
    congr 2
    refine List.map_congr_left fun letter hmem ↦ ?_
    unfold FlagSet.hasLetter
    cases hletter : Flag.ofLetter? letter with
    | none => rfl
    | some flag =>
      have hlaid : (FlagSet.ofLetters format.flags).contains flag = true := by
        rw [FlagSet.contains_ofLetters, List.any_eq_true]
        exact ⟨letter, hmem, by simpa using hletter⟩
      simp [hlaid]
  simp only [encode, fields, hfield]

theorem Command.encode_inter {symbols : Symbols} {command : Command} {op : MachineOp}
    (hop : command.op? = some op) :
    ({ command with flags := command.flags.inter (.ofLetters op.format.flags) } : Command).encode
      symbols = command.encode symbols := by
  have hkept : ({ command with
      flags := command.flags.inter (.ofLetters op.format.flags) } : Command).op? = some op := hop
  rw [encode_of_op hop, encode_of_op hkept]
  exact congrArg _ (funext fun value ↦ congrArg _ (op.format.encode_inter _ _ value))

/-! ## Warnings along a pass -/

namespace Report

variable {before between after : Report}

/-- A number of warnings is added to a report, and errors may be. -/
structure Warns (count : ℕ) (before after : Report) : Prop where
  infos_eq : after.tally.infos = before.tally.infos
  warnings_eq : after.tally.warnings = before.tally.warnings + count

theorem Warns.refl (report : Report) : Warns 0 report report := ⟨rfl, rfl⟩

theorem Warns.trans {m n : ℕ} (first : Warns m before between) (second : Warns n between after) :
    Warns (m + n) before after := by
  refine ⟨second.infos_eq.trans first.infos_eq, ?_⟩
  rw [second.warnings_eq, first.warnings_eq, Nat.add_assoc]

theorem warns_of_warn {stage : Stage} {line : Option ℕ} {message : String}
    {outcome : Except Failure Unit} (h : before.warn stage line message = (after, outcome)) :
    Warns 1 before after := by
  obtain ⟨rfl, -⟩ := Prod.mk.inj h
  exact ⟨rfl, rfl⟩

theorem warns_error (report : Report) (stage : Stage) (line : Option ℕ) (message : String) :
    Warns 0 report (report.error stage line message) := ⟨rfl, rfl⟩

theorem AddsErrors.warns (h : AddsErrors before after) : Warns 0 before after := by
  obtain ⟨added, rfl, -⟩ := h
  exact ⟨rfl, rfl⟩

end Report

open Report

namespace Reader

theorem warns_of_finish {reader after : Reader} {lastLine : Option ℕ}
    (h : reader.finish lastLine = (after, .ok ())) :
    reader.report.Warns (if reader.pending.isEmpty then 0 else 1) after.report := by
  unfold finish at h
  split at h
  · next hempty =>
    obtain ⟨rfl, -⟩ := Prod.mk.inj h
    rw [if_pos hempty]
    exact .refl _
  · next hleft =>
    obtain ⟨rfl, -⟩ := Prod.mk.inj h
    rw [if_neg hleft]
    exact warns_of_warn rfl

/-- Reading warns of flags that are left at the end of the source, and of nothing else. -/
theorem warns_of_read {constants : Constants} {symbols : Symbols} {report : Report}
    {source : List SourceLine} {reader : Reader} {commands : List Command}
    (h : ({ constants, symbols, report } : Reader).read source = (reader, .ok commands)) :
    report.Warns (if (SourceLine.gathered source source.length).isEmpty then 0 else 1)
      reader.report := by
  obtain ⟨last, hlines, hfinish⟩ := exists_finish_of_read h
  have hgathers := gathersFlags_of_lines hlines
  have htotal := (addsErrors_of_lines hlines).warns.trans (warns_of_finish hfinish)
  rwa [Nat.zero_add, hgathers.pending] at htotal

end Reader

namespace Draft

variable {draft result : Draft}

/-- A symbol is worth a warning if there is no command for it. -/
theorem warns_of_placeSymbol {commands : List Command} {report next : Report} {name : Text}
    {symbol changed : Symbol} (h : placeSymbol commands report name symbol = (next, .ok changed)) :
    report.Warns (decide (commands.length ≤ symbol.commandIndex)).toNat next := by
  unfold placeSymbol at h
  split at h
  · next command hcommand =>
    obtain ⟨rfl, -⟩ := Prod.mk.inj h
    have hlt : symbol.commandIndex < commands.length := (List.getElem?_eq_some_iff.1 hcommand).1
    rw [decide_eq_false (Nat.not_le.2 hlt)]
    exact .refl _
  · next hnone =>
    obtain ⟨rfl, -⟩ := Prod.mk.inj h
    rw [decide_eq_true (List.getElem?_eq_none_iff.1 hnone)]
    exact warns_of_warn rfl

theorem warns_of_backfillSymbols (h : draft.backfillSymbols = (result, .ok ())) :
    draft.report.Warns
      (draft.symbols.entries.countP fun entry ↦ draft.commands.length ≤ entry.2.commandIndex)
      result.report := by
  unfold backfillSymbols at h
  rcases hsweep : draft.symbols.sweep (placeSymbol draft.commands) draft.report with
    ⟨symbols, report, outcome⟩
  rw [hsweep] at h
  obtain ⟨rfl, rfl⟩ := Prod.mk.inj h
  rw [← sum_map_toNat]
  exact Table.sweep_adds Warns.refl Warns.trans warns_of_placeSymbol hsweep

theorem warns_of_warnDroppedFlags {report next : Report} {command : Command}
    (h : warnDroppedFlags report command = (next, .ok ())) :
    report.Warns (decide command.HasStrayFlag).toNat next := by
  unfold warnDroppedFlags at h
  split at h
  · next hnone =>
    obtain ⟨rfl, -⟩ := Prod.mk.inj h
    have hstray : ¬ command.HasStrayFlag := fun ⟨op, _, hop, _⟩ ↦ by simp [hnone] at hop
    rw [decide_eq_false hstray]
    exact .refl _
  · split at h
    · next hempty =>
      obtain ⟨rfl, -⟩ := Prod.mk.inj h
      rw [decide_eq_false (by simp [Command.hasStrayFlag_iff, hempty])]
      exact .refl _
    · next hdropped =>
      rw [decide_eq_true (Command.hasStrayFlag_iff.2 (by simpa using hdropped))]
      exact warns_of_warn h

/-- A command is worth a warning if it has a stray flag, whether it has a word or not. -/
theorem warns_of_encodeCommand {symbols : Symbols} {report next : Report}
    {command changed : Command} (h : encodeCommand symbols report command = (next, .ok changed)) :
    report.Warns (decide command.HasStrayFlag).toNat next := by
  unfold encodeCommand at h
  split at h
  · cases h
  · next between hflags =>
    have hwarns := warns_of_warnDroppedFlags hflags
    split at h
    · obtain ⟨rfl, -⟩ := Prod.mk.inj h
      exact hwarns
    · split at h
      · cases h
      · obtain ⟨rfl, -⟩ := Prod.mk.inj h
        exact hwarns.trans (warns_error between _ _ _)

theorem warns_of_encodeCommands (h : draft.encodeCommands = (result, .ok ())) :
    draft.report.Warns (draft.commands.countP fun command ↦ command.HasStrayFlag)
      result.report := by
  unfold encodeCommands at h
  rcases hsweep : sweep (encodeCommand draft.symbols) draft.report draft.commands with
    ⟨commands, report, outcome⟩
  rw [hsweep] at h
  obtain ⟨rfl, rfl⟩ := Prod.mk.inj h
  rw [← sum_map_toNat]
  exact sweep_adds Warns.refl Warns.trans (fun hstep ↦ warns_of_encodeCommand hstep) hsweep

theorem exists_of_andThen {before : Draft × Except Failure Unit}
    {pass : Draft → Draft × Except Failure Unit} (h : andThen before pass = (result, .ok ())) :
    ∃ between, before = (between, .ok ()) ∧ pass between = (result, .ok ()) := by
  obtain ⟨between, failure | ⟨⟩⟩ := before
  · cases h
  · exact ⟨between, rfl, h⟩

/-- Linking leaves alone which commands the symbols stand for. -/
theorem countP_symbols_of_link (p : ℕ → Bool) (h : draft.link = (result, .ok ())) :
    (result.symbols.entries.countP fun entry ↦ p entry.2.commandIndex) =
      draft.symbols.entries.countP fun entry ↦ p entry.2.commandIndex := by
  obtain ⟨-, ⟨report, rfl⟩, -⟩ := of_link_eq_ok h
  simp only [linked, linkedSymbols, resolvedSymbols, Table.mapWithKey, List.countP_map,
    Function.comp_def, Symbol.placed_eq]
  rfl

theorem countP_commands_of_link {p : Command → Bool}
    (hp : ∀ command, p command.unlinked = p command) (h : draft.link = (result, .ok ())) :
    result.commands.countP p = draft.placed.commands.countP p := by
  have hplaced : draft.placed.commands.map p = draft.commands.map p := by
    refine map_placed (fun command address ↦ ?_) draft
    rw [← hp command, ← hp (command.placedAt address)]
    rfl
  calc
    result.commands.countP p = (result.commands.map p).countP id := by
      rw [List.countP_map, Function.id_comp]
    _ = (draft.placed.commands.map p).countP id := by rw [map_of_link hp h, hplaced]
    _ = draft.placed.commands.countP p := by rw [List.countP_map, Function.id_comp]

/-- The warnings of linking can be counted in what it leaves. -/
theorem warns_of_link (h : draft.link = (result, .ok ())) :
    draft.report.Warns
      ((result.symbols.entries.countP fun entry ↦
          result.commands.length ≤ entry.2.commandIndex) +
        result.commands.countP fun command ↦ command.HasStrayFlag) result.report := by
  obtain ⟨hfit, -, -⟩ := of_link_eq_ok h
  obtain ⟨encoded, hencodes, hcheck⟩ := exists_of_andThen h
  obtain ⟨backfilled, hbackfills, hencode⟩ := exists_of_andThen hencodes
  rw [assignAddresses_eq_placed hfit] at hbackfills
  have hbackfill : draft.placed.backfillSymbols = (backfilled, .ok ()) := hbackfills
  obtain rfl : encoded = result := (Prod.mk.inj hcheck).1
  have hkept : backfilled.commands = draft.placed.commands := by
    rw [← (Prod.mk.inj hbackfill).1]
  have hlength : draft.placed.commands.length = draft.commands.length := by
    simp [placed, length_layout]
  have htotal := (warns_of_backfillSymbols hbackfill).trans (warns_of_encodeCommands hencode)
  rw [hkept, hlength] at htotal
  -- neither count looks at what linking gives to symbols and commands
  rw [countP_commands_of_link (fun _ ↦ rfl) h, length_of_link h,
    countP_symbols_of_link (fun index ↦ decide (draft.commands.length ≤ index)) h]
  exact htotal

end Draft

/-- All warnings of a run that gives a program are accounted for: one for flags left at the end of
the source, one for each symbol without a command and one for each command with a flag that its
format has no letter for. Such flags are dropped, so the word of a command is that of the same
command without them. -/
theorem Program.warnings_of_assemble {settings : Settings} {source : List SourceLine}
    {program : Program} (h : (assemble settings source).2 = .ok program) :
    program.report.tally.errors = 0 ∧ program.report.tally.infos = 0 ∧
    program.report.tally.warnings =
      (if (SourceLine.gathered source source.length).isEmpty then 0 else 1) +
        ((program.symbols.entries.countP fun entry ↦
            program.commands.length ≤ entry.2.commandIndex) +
          program.commands.countP fun command ↦ command.HasStrayFlag) ∧
    ∀ command ∈ program.commands, ∃ op, command.op? = some op ∧
      ({ command with flags := command.flags.inter (.ofLetters op.format.flags) } : Command).encode
        program.symbols = .ok command.code := by
  obtain ⟨reader, written, hfrom⟩ := exists_comesFrom_of_assemble h
  have hread : (Report.start settings.warningLimit).Warns
      (if (SourceLine.gathered source source.length).isEmpty then 0 else 1) reader.report :=
    Reader.warns_of_read hfrom.read_eq
  have htotal := hread.trans (Draft.warns_of_link hfrom.link_eq)
  refine ⟨?_, htotal.infos_eq, ?_, fun command hmem ↦ ?_⟩
  · have herrors := Draft.errors_of_link (congrArg Prod.snd hfrom.link_eq)
    rwa [hfrom.link_eq] at herrors
  · calc
      program.report.tally.warnings = 0 + _ := htotal.warnings_eq
      _ = _ := Nat.zero_add _
  · have hencode := Draft.encode_of_link hfrom.link_eq command hmem
    cases hop : command.op? with
    | none =>
      rw [Command.encode, hop] at hencode
      cases hencode
    | some op => exact ⟨op, rfl, (Command.encode_inter hop).trans hencode⟩

/-- A flag that data moves have no letter for, a symbol behind the last command, and a flag behind
the last mnemonic: three warnings, and the word of the data move is the plain one. -/
theorem Program.warnings_of_assemble_three :
    ∃ program, (assemble {} (SourceLine.ofText
        "K MOVD 1\n@a: S A NOOP\n@end:\nA".toList)).2 = .ok program ∧
      program.report.tally = { infos := 0, warnings := 3, errors := 0 } ∧
      program.codes = [0b110000000000001, 0b110101100000000] ∧
      ∀ command ∈ program.commands, ∃ op, command.op? = some op ∧
        ({ command with flags := command.flags.inter (.ofLetters op.format.flags) } :
          Command).encode program.symbols = .ok command.code := by
  generalize hsource : SourceLine.ofText "K MOVD 1\n@a: S A NOOP\n@end:\nA".toList = source
  have hleft : (SourceLine.gathered source source.length).isEmpty = false := by
    rw [← hsource]
    decide +kernel
  have hresult : (assemble {} source).2.toOption.map (fun program ↦
      (program.codes, program.commands.countP fun command ↦ command.HasStrayFlag,
        program.symbols.entries.countP fun entry ↦
          program.commands.length ≤ entry.2.commandIndex)) =
      some ([0b110000000000001, 0b110101100000000], 1, 1) := by
    rw [← hsource]
    decide +kernel
  rcases hassemble : (assemble {} source).2 with failure | program
  · rw [hassemble] at hresult
    cases hresult
  rw [hassemble] at hresult
  obtain ⟨hcodes, hstray, hsymbols⟩ : _ ∧ _ ∧ _ := by
    simpa only [Except.toOption, Option.map_some, Option.some.injEq, Prod.mk.injEq] using hresult
  obtain ⟨herrors, hinfos, hwarnings, hencode⟩ := warnings_of_assemble hassemble
  rw [hleft, hstray, hsymbols] at hwarnings
  refine ⟨program, rfl, ?_, hcodes, hencode⟩
  rcases htally : program.report.tally with ⟨infos, warnings, errors⟩
  rw [htally] at herrors hinfos hwarnings
  rw [Tally.mk.injEq]
  exact ⟨hinfos, hwarnings, herrors⟩

end Sequencer
