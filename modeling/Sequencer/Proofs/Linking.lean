import Mathlib
import Sequencer.Link
import Sequencer.Proofs.Layout
import Sequencer.Proofs.Report

/-!
# The passes of the linker

Linking runs three passes over a draft. The first computes the layout, the second gives each symbol
the address of its command, and the third encodes every command against the symbols so obtained. A
run that succeeds has encoded every command, since a command without a word leaves an error behind.
-/

namespace Sequencer

open Report

/-! ## Addresses -/

namespace Draft

/-- The addresses that the layout gives to the commands. -/
def layout (draft : Draft) : List ℕ := Layout.addresses none (draft.commands.map Command.alignment)

theorem length_layout (draft : Draft) : draft.layout.length = draft.commands.length := by
  simp [layout]

/-- Every command would get an address of the program memory. -/
def FitsMemory (draft : Draft) : Prop := ∀ address ∈ draft.layout, address ≤ maxAddress

/-- The draft with every command at its address. -/
def placed (draft : Draft) : Draft :=
  { draft with commands := List.zipWith Command.placedAt draft.commands draft.layout }

/-- What does not depend on the address of a command is not changed by placing it. -/
theorem map_placed {β : Type} {f : Command → β}
    (hf : ∀ (command : Command) (address : ℕ), f (command.placedAt address) = f command)
    (draft : Draft) : draft.placed.commands.map f = draft.commands.map f := by
  apply List.ext_getElem
  · simp [placed, length_layout]
  · intro index _ _
    simp [placed, hf]

theorem assignAddresses_eq_placed {draft : Draft} (hfit : draft.FitsMemory) :
    draft.assignAddresses = (draft.placed, .ok ()) := by
  obtain ⟨last, hsweep⟩ := sweep_placeCommand_ok draft.commands none (by simp) draft.report hfit
  unfold assignAddresses
  rw [hsweep]
  rfl

theorem assignAddresses_fatal {draft : Draft} (hfit : ¬ draft.FitsMemory) :
    ∃ commands line message, draft.assignAddresses =
      ({ draft with commands, report := (draft.report.fatal .linker line message).1 },
        .error (.fatal .linker line message)) := by
  simp only [FitsMemory, not_forall, not_le, exists_prop] at hfit
  obtain ⟨front, command, back, last, address, -, -, -, -, hsweep⟩ :=
    sweep_placeCommand_fatal draft.commands none (by simp) draft.report rfl hfit
  refine ⟨List.zipWith Command.placedAt front draft.layout ++ command :: back, some command.line,
    addressMessage address, ?_⟩
  unfold assignAddresses
  rw [hsweep]
  rfl

/-! ## Symbols -/

/-- Warnings of the linker. -/
def IsLinkerWarning (d : Diagnostic) : Prop := d.severity = .warning ∧ d.stage = .linker

end Draft

/-- The symbol with the address of its command, if it has one. -/
def Symbol.placed (commands : List Command) (symbol : Symbol) : Symbol :=
  match commands[symbol.commandIndex]? with
  | some command => { symbol with address := some command.address }
  | none => symbol

namespace Draft

/-- What a pass does to a report when it goes through: it adds diagnostics of a kind and a number of
errors, and no warning of it meets the limit. -/
structure Kept (kind : Diagnostic → Prop) (errors : ℕ) (before after : Report) : Prop where
  continues : Continues kind before after
  errors_eq : after.tally.errors = before.tally.errors + errors
  limit_unmet : after.tally.warnings = before.tally.warnings ∨ after.warningLimitMet = false

theorem Kept.refl {kind : Diagnostic → Prop} (report : Report) : Kept kind 0 report report :=
  ⟨.refl report, rfl, .inl rfl⟩

theorem Kept.trans {kind : Diagnostic → Prop} {m n : ℕ} {before between after : Report}
    (first : Kept kind m before between) (second : Kept kind n between after) :
    Kept kind (m + n) before after := by
  refine ⟨first.continues.trans second.continues, ?_, ?_⟩
  · rw [second.errors_eq, first.errors_eq, Nat.add_assoc]
  · rcases second.limit_unmet with hsame | hunmet
    · refine first.limit_unmet.imp hsame.trans fun hunmet ↦ ?_
      rw [← hunmet, warningLimitMet, warningLimitMet, hsame, second.continues.warningLimit_eq]
    · exact .inr hunmet

theorem Kept.mono {kind other : Diagnostic → Prop} {n : ℕ} {before after : Report}
    (h : Kept kind n before after) (himp : ∀ d, kind d → other d) : Kept other n before after :=
  ⟨h.continues.mono himp, h.errors_eq, h.limit_unmet⟩

/-- What is known of a report when a warning ended the pass. -/
def Halted (kind : Diagnostic → Prop) (before after : Report) (failure : Failure) : Prop :=
  Continues kind before after ∧ HaltedByWarning before after failure

theorem Halted.of_kept {kind : Diagnostic → Prop} {n : ℕ} {before between after : Report}
    {failure : Failure} (first : Kept kind n before between)
    (second : Halted kind between after failure) : Halted kind before after failure :=
  ⟨first.continues.trans second.1, .of_continues first.continues second.2⟩

/-- What the second pass does to one symbol. -/
theorem placeSymbol_cases (commands : List Command) (report : Report) (name : Text)
    (symbol : Symbol) :
    (∃ next, placeSymbol commands report name symbol = (next, .ok (symbol.placed commands)) ∧
        Kept IsLinkerWarning 0 report next) ∨
      ∃ next failure, placeSymbol commands report name symbol = (next, .error failure) ∧
        Halted IsLinkerWarning report next failure := by
  unfold placeSymbol Symbol.placed
  cases commands[symbol.commandIndex]? with
  | some command => exact .inl ⟨report, rfl, .refl report⟩
  | none =>
    have hkind (message : String) : IsLinkerWarning
        { severity := .warning, stage := .linker, line := some symbol.line, message } :=
      ⟨rfl, rfl⟩
    obtain ⟨next, hcontinues, herrors, ⟨hok, hunmet⟩ | ⟨failure, hfailure, hhalt⟩⟩ :=
      report.warn_cases (hkind s!"symbol {String.ofList name} labels no instruction")
    · exact .inl ⟨next, by rw [hok]; rfl, hcontinues, herrors, .inr hunmet⟩
    · exact .inr ⟨next, failure, by rw [hfailure]; rfl, hcontinues, hhalt⟩

/-- The draft with an address for every symbol that has a command. -/
def resolvedSymbols (draft : Draft) : Symbols :=
  draft.symbols.mapWithKey fun _ symbol ↦ symbol.placed draft.commands

theorem backfillSymbols_cases (draft : Draft) :
    (∃ report, draft.backfillSymbols =
        ({ draft with symbols := draft.resolvedSymbols, report }, .ok ()) ∧
        Kept IsLinkerWarning 0 draft.report report) ∨
      ∃ symbols report failure, draft.backfillSymbols =
        ({ draft with symbols, report }, .error failure) ∧
        Halted IsLinkerWarning draft.report report failure := by
  have hsweep := Table.sweep_cases (fun _ symbol ↦ symbol.placed draft.commands)
    (Kept IsLinkerWarning 0) (Halted IsLinkerWarning) draft.symbols draft.report Kept.refl
    Kept.trans Halted.of_kept (placeSymbol_cases draft.commands)
  unfold backfillSymbols
  obtain ⟨report, hrun, hkept⟩ | ⟨symbols, report, failure, hrun, hhalted⟩ := hsweep
  · exact .inl ⟨report, by rw [hrun]; rfl, hkept⟩
  · exact .inr ⟨symbols, report, failure, by rw [hrun], hhalted⟩

end Draft

/-! ## Words -/

namespace Command

/-- The value that goes into the word of a command with a given operation. -/
def fieldValue (symbols : Symbols) (op : MachineOp) (command : Command) :
    Except EncodingFault UInt16 :=
  if op.isBranch then command.branchValue symbols else .ok (command.constant?.getD 0)

theorem encode_of_op {symbols : Symbols} {command : Command} {op : MachineOp}
    (hop : command.op? = some op) :
    command.encode symbols = (command.fieldValue symbols op).bind fun value ↦
      (op.format.encode command.registerIndex command.flags value).mapError .overflow := by
  simp only [encode, fieldValue, hop]
  split
  · rfl
  · rfl

/-- The command with its word, if it has one. -/
def encoded (symbols : Symbols) (command : Command) : Command :=
  match command.encode symbols with
  | .ok code => { command with code }
  | .error _ => command

/-- Whether the command has no word. -/
def isUnencodable (symbols : Symbols) (command : Command) : Bool :=
  match command.encode symbols with
  | .ok _ => false
  | .error _ => true

theorem encode_encoded (symbols other : Symbols) (command : Command) :
    (command.encoded symbols).encode other = command.encode other := by
  unfold encoded
  split <;> rfl

theorem address_encoded (symbols : Symbols) (command : Command) :
    (command.encoded symbols).address = command.address := by
  unfold encoded
  split <;> rfl

/-- The command without what linking gives it. -/
def unlinked (command : Command) : Command := { command with address := 0, code := idleCode }

theorem unlinked_encoded (symbols : Symbols) (command : Command) :
    (command.encoded symbols).unlinked = command.unlinked := by
  unfold encoded
  split <;> rfl

end Command

namespace Draft

/-- What the third pass may record about some commands: warnings, and for a command without a word
the reason. -/
def IsEncodingDiagnostic (symbols : Symbols) (commands : List Command) (d : Diagnostic) : Prop :=
  IsLinkerWarning d ∨ ∃ command ∈ commands, ∃ fault, command.encode symbols = .error fault ∧
    (fault.isInternal = true ∧ d.severity = .fatal ∨
      fault.isInternal = false ∧ d =
        { severity := .error
          stage := .linker
          line := some command.line
          message := s!"{command.opcode.mnemonic}: {fault.message}" })

/-- Why the third pass may end early: by a warning, or at a command that was never resolved. -/
def EncodingHalted (symbols : Symbols) (commands : List Command) (before after : Report)
    (failure : Failure) : Prop :=
  Continues (IsEncodingDiagnostic symbols commands) before after ∧
    (HaltedByWarning before after failure ∨ ∃ command ∈ commands, ∃ fault,
      command.encode symbols = .error fault ∧ fault.isInternal = true)

theorem warnDroppedFlags_cases (report : Report) (command : Command) :
    (∃ next, warnDroppedFlags report command = (next, .ok ()) ∧
        Kept IsLinkerWarning 0 report next) ∨
      ∃ next failure, warnDroppedFlags report command = (next, .error failure) ∧
        Halted IsLinkerWarning report next failure := by
  unfold warnDroppedFlags
  cases command.op? with
  | none => exact .inl ⟨report, rfl, .refl report⟩
  | some op =>
    by_cases hnone : command.droppedFlags.isEmpty
    · exact .inl ⟨report, if_pos hnone, .refl report⟩
    · have hkind (message : String) : IsLinkerWarning
          { severity := .warning, stage := .linker, line := some command.line, message } :=
        ⟨rfl, rfl⟩
      simp only [if_neg hnone]
      obtain ⟨next, hcontinues, herrors, ⟨hok, hunmet⟩ | ⟨failure, hfailure, hhalt⟩⟩ :=
        report.warn_cases (hkind _)
      · exact .inl ⟨next, hok, hcontinues, herrors, .inr hunmet⟩
      · exact .inr ⟨next, failure, hfailure, hcontinues, hhalt⟩

/-- What the third pass does to one of the commands. -/
theorem encodeCommand_cases (symbols : Symbols) (commands : List Command) (report : Report)
    {command : Command} (hmem : command ∈ commands) :
    (∃ next, encodeCommand symbols report command = (next, .ok (command.encoded symbols)) ∧
        Kept (IsEncodingDiagnostic symbols commands) (command.isUnencodable symbols).toNat
          report next) ∨
      ∃ next failure, encodeCommand symbols report command = (next, .error failure) ∧
        EncodingHalted symbols commands report next failure := by
  obtain ⟨next, hok, hkept⟩ | ⟨next, failure, hfailure, hcontinues, hhalt⟩ :=
    warnDroppedFlags_cases report command
  · replace hkept : Kept (IsEncodingDiagnostic symbols commands) 0 report next :=
      hkept.mono fun _ ↦ .inl
    unfold encodeCommand Command.encoded Command.isUnencodable
    rw [hok]
    cases hencode : command.encode symbols with
    | ok code => exact .inl ⟨next, rfl, hkept⟩
    | error fault =>
      by_cases hinternal : fault.isInternal
      · refine .inr ⟨_, _, by simp only [if_pos hinternal]; rfl,
          hkept.continues.trans (next.continues_fatal ?_), .inr ⟨command, hmem, fault, hencode,
            hinternal⟩⟩
        exact .inr ⟨command, hmem, fault, hencode, .inl ⟨hinternal, rfl⟩⟩
      · refine .inl ⟨_, by simp only [if_neg hinternal]; rfl,
          hkept.continues.trans (next.continues_error ?_), congrArg (· + 1) hkept.errors_eq,
          hkept.limit_unmet⟩
        exact .inr ⟨command, hmem, fault, hencode, .inr ⟨by simpa using hinternal, rfl⟩⟩
  · refine .inr ⟨next, failure, ?_, hcontinues.mono fun _ ↦ .inl, .inl hhalt⟩
    unfold encodeCommand
    rw [hfailure]

/-- How the third pass ends. One that goes through leaves an error for every command without a
word. -/
theorem encodeCommands_cases (draft : Draft) :
    (∃ report, draft.encodeCommands =
        ({ draft with commands := draft.commands.map (Command.encoded draft.symbols), report },
          .ok ()) ∧
        Kept (IsEncodingDiagnostic draft.symbols draft.commands)
          (draft.commands.countP (Command.isUnencodable draft.symbols)) draft.report report) ∨
      ∃ commands report failure, draft.encodeCommands =
        ({ draft with commands, report }, .error failure) ∧
        EncodingHalted draft.symbols draft.commands draft.report report failure := by
  have hsweep := sweep_cases (Command.encoded draft.symbols)
    (fun command ↦ (command.isUnencodable draft.symbols).toNat)
    (Kept (IsEncodingDiagnostic draft.symbols draft.commands))
    (EncodingHalted draft.symbols draft.commands) draft.report draft.commands Kept.refl Kept.trans
    (fun first second ↦ ⟨first.continues.trans second.1,
      second.2.imp_left (HaltedByWarning.of_continues first.continues)⟩)
    (fun report command hmem ↦ encodeCommand_cases draft.symbols draft.commands report hmem)
  rw [sum_map_toNat] at hsweep
  unfold encodeCommands
  obtain ⟨report, hrun, hkept⟩ | ⟨commands, report, failure, hrun, hhalted⟩ := hsweep
  · exact .inl ⟨report, by rw [hrun], hkept⟩
  · exact .inr ⟨commands, report, failure, by rw [hrun], hhalted⟩

/-! ## The whole pass -/

/-- The symbols that commands are encoded against. -/
def linkedSymbols (draft : Draft) : Symbols := draft.placed.resolvedSymbols

/-- What a linked draft is, but for its report: every command at its address with its word, every
symbol with its address. -/
def linked (draft : Draft) (report : Report) : Draft where
  commands := draft.placed.commands.map (Command.encoded draft.linkedSymbols)
  symbols := draft.linkedSymbols
  report := report

/-- The addresses of a linked draft are those of the layout. -/
theorem map_address_linked {draft : Draft} (hfit : draft.FitsMemory) (report : Report) :
    ((draft.linked report).commands.map fun command ↦ command.address.toNat) = draft.layout := by
  have hplaced : (draft.placed.commands.map fun command ↦ command.address.toNat) =
      draft.layout := by
    apply List.ext_getElem
    · simp [placed, length_layout]
    · intro place _ hlt
      have haddress := hfit _ (List.getElem_mem hlt)
      simp only [placed, List.getElem_map, List.getElem_zipWith, Command.placedAt]
      exact UInt16.toNat_ofNat_of_lt' (Nat.lt_succ_of_le haddress)
  rw [linked, List.map_map, ← hplaced]
  refine List.map_congr_left fun command _ ↦ ?_
  exact congrArg UInt16.toNat (Command.address_encoded _ command)

/-- How linking ends: beyond the memory, at a warning or a command that was never resolved, or at
the check that counts the commands without a word. -/
theorem link_cases (draft : Draft) :
    (¬ draft.FitsMemory ∧ ∃ commands line message, draft.link =
        ({ draft with commands, report := (draft.report.fatal .linker line message).1 },
          .error (.fatal .linker line message))) ∨
      (draft.FitsMemory ∧ ((∃ halted failure, draft.link = (halted, .error failure) ∧
          EncodingHalted draft.linkedSymbols draft.placed.commands draft.report halted.report
            failure) ∨
        ∃ report, draft.link = (draft.linked report, report.check .linker) ∧
          Kept (IsEncodingDiagnostic draft.linkedSymbols draft.placed.commands)
            (draft.placed.commands.countP (Command.isUnencodable draft.linkedSymbols))
            draft.report report)) := by
  by_cases hfit : draft.FitsMemory
  · refine .inr ⟨hfit, ?_⟩
    unfold link
    rw [assignAddresses_eq_placed hfit]
    obtain ⟨report, hbackfill, hkept⟩ | ⟨symbols, report, failure, hbackfill, hhalted⟩ :=
      backfillSymbols_cases draft.placed
    · replace hkept : Kept (IsEncodingDiagnostic draft.linkedSymbols draft.placed.commands) 0
          draft.report report := hkept.mono fun _ ↦ .inl
      simp only [andThen, hbackfill]
      obtain ⟨report', hencode, hkept'⟩ | ⟨commands, report', failure, hencode, hhalted⟩ :=
        encodeCommands_cases { draft.placed with symbols := draft.placed.resolvedSymbols, report }
      · refine .inr ⟨report', by rw [hencode]; rfl, ?_⟩
        have htotal := hkept.trans hkept'
        rwa [Nat.zero_add] at htotal
      · refine .inl ⟨{ commands, symbols := draft.linkedSymbols, report := report' }, failure,
          by rw [hencode]; rfl, hkept.continues.trans hhalted.1, ?_⟩
        exact hhalted.2.imp_left (HaltedByWarning.of_continues hkept.continues)
    · simp only [andThen, hbackfill]
      exact .inl ⟨_, failure, rfl, hhalted.1.mono fun _ ↦ .inl, .inl hhalted.2⟩
  · obtain ⟨commands, line, message, hfatal⟩ := assignAddresses_fatal hfit
    refine .inl ⟨hfit, commands, line, message, ?_⟩
    unfold link
    rw [hfatal]
    rfl

theorem backfillSymbols_eq {draft : Draft}
    (h : ∀ name symbol, draft.symbols.get? name = some symbol →
      symbol.commandIndex < draft.commands.length) :
    draft.backfillSymbols = ({ draft with symbols := draft.resolvedSymbols }, .ok ()) := by
  have hplace : ∀ name symbol, draft.symbols.get? name = some symbol →
      placeSymbol draft.commands draft.report name symbol =
        (draft.report, .ok (symbol.placed draft.commands)) := by
    intro name symbol hsymbol
    simp only [placeSymbol, Symbol.placed, List.getElem?_eq_getElem (h name symbol hsymbol)]
  unfold backfillSymbols
  rw [Table.sweep_of_forall_ok hplace]
  rfl

theorem encodeCommands_eq {draft : Draft}
    (hflags : ∀ command ∈ draft.commands, command.droppedFlags.isEmpty = true)
    (hencode : ∀ command ∈ draft.commands, ∃ code, command.encode draft.symbols = .ok code) :
    draft.encodeCommands =
      ({ draft with commands := draft.commands.map (Command.encoded draft.symbols) }, .ok ()) := by
  have hstep : ∀ command ∈ draft.commands, encodeCommand draft.symbols draft.report command =
      (draft.report, .ok (command.encoded draft.symbols)) := by
    intro command hmem
    obtain ⟨code, hcode⟩ := hencode command hmem
    have hquiet : warnDroppedFlags draft.report command = (draft.report, .ok ()) := by
      unfold warnDroppedFlags
      split
      · rfl
      · rw [if_pos (hflags command hmem)]
    simp only [encodeCommand, hquiet, hcode, Command.encoded]
  unfold encodeCommands
  rw [sweep_of_forall_ok hstep]

/-- Linking says nothing about a draft in which every symbol has a command, and every command a word
that holds all its flags. -/
theorem link_eq_linked {draft : Draft} (hfit : draft.FitsMemory)
    (hsymbols : ∀ name symbol, draft.symbols.get? name = some symbol →
      symbol.commandIndex < draft.commands.length)
    (hflags : ∀ command ∈ draft.placed.commands, command.droppedFlags.isEmpty = true)
    (hencode : ∀ command ∈ draft.placed.commands, ∃ code,
      command.encode draft.linkedSymbols = .ok code)
    (herrors : draft.report.tally.errors = 0) :
    draft.link = (draft.linked draft.report, .ok ()) := by
  have hlength : draft.placed.commands.length = draft.commands.length := by
    simp [placed, length_layout]
  have hbackfill := @backfillSymbols_eq draft.placed fun name symbol hsymbol ↦
    (hsymbols name symbol hsymbol).trans_eq hlength.symm
  have hencoded := @encodeCommands_eq
    { draft.placed with symbols := draft.placed.resolvedSymbols } hflags hencode
  unfold link
  rw [assignAddresses_eq_placed hfit]
  simp only [andThen, hbackfill, hencoded]
  exact Prod.ext rfl (if_pos herrors)

/-- A draft that links is encoded as a whole. -/
theorem of_link_eq_ok {draft result : Draft} (h : draft.link = (result, .ok ())) :
    draft.FitsMemory ∧ (∃ report, result = draft.linked report) ∧
      ∀ command ∈ draft.placed.commands, command.isUnencodable draft.linkedSymbols = false := by
  obtain ⟨-, commands, line, message, hfatal⟩ | ⟨hfit, ⟨halted, failure, hhalted, -⟩ |
      ⟨report, hlink, -, herrors, -⟩⟩ := draft.link_cases
  · rw [h] at hfatal
    cases hfatal
  · rw [h] at hhalted
    cases hhalted
  · rw [h] at hlink
    obtain ⟨hresult, hcheck⟩ := Prod.mk.inj hlink
    have hnone : report.tally.errors = 0 := Report.check_eq_ok_iff.1 hcheck.symm
    refine ⟨hfit, ⟨report, hresult⟩, ?_⟩
    rw [hnone] at herrors
    have hcount : draft.placed.commands.countP (Command.isUnencodable draft.linkedSymbols) = 0 := by
      omega
    simpa using List.countP_eq_zero.1 hcount

/-- Linking gives commands their addresses and words, and changes nothing else about them. -/
theorem map_unlinked_of_link {draft result : Draft} (h : draft.link = (result, .ok ())) :
    result.commands.map Command.unlinked = draft.commands.map Command.unlinked := by
  obtain ⟨-, ⟨report, rfl⟩, -⟩ := of_link_eq_ok h
  calc
    (draft.linked report).commands.map Command.unlinked =
        draft.placed.commands.map Command.unlinked := by
      simp only [linked, List.map_map, Function.comp_def, Command.unlinked_encoded]
    _ = draft.commands.map Command.unlinked := map_placed (fun _ _ ↦ rfl) draft

theorem encode_of_link {draft result : Draft} (h : draft.link = (result, .ok ())) :
    ∀ command ∈ result.commands, command.encode result.symbols = .ok command.code := by
  obtain ⟨-, ⟨report, rfl⟩, hencodable⟩ := of_link_eq_ok h
  intro command hmem
  obtain ⟨placed, hplaced, rfl⟩ := List.mem_map.1 hmem
  rw [Command.encode_encoded]
  change placed.encode draft.linkedSymbols = .ok (placed.encoded draft.linkedSymbols).code
  have hnone := hencodable placed hplaced
  unfold Command.isUnencodable at hnone
  unfold Command.encoded
  cases hencode : placed.encode draft.linkedSymbols with
  | ok code => rfl
  | error fault => simp [hencode] at hnone

end Draft

end Sequencer
