import Mathlib
import Sequencer.Source.Reading
import Sequencer.Proofs.Linking
import Sequencer.Proofs.Validation

/-!
# Where branches go

A branch of a validated draft names a symbol whose command exists, and that command is aligned as
the settings ask. Linking gives the symbol the address of its command.
-/

namespace Sequencer

/-- Resolved operands depend on the opcode and the written operands, and on the symbols only through
the commands that they name. -/
theorem Operand.Resolved.congr {symbols symbols' : Symbols} {count : ℕ} {command command' : Command}
    {operands : List Operand} (h : Resolved symbols count command operands)
    (hopcode : command'.opcode = command.opcode)
    (hraw : command'.rawOperands = command.rawOperands)
    (hindex : ∀ name, (symbols'.get? name).map Symbol.commandIndex =
      (symbols.get? name).map Symbol.commandIndex) :
    Resolved symbols' count command' operands := by
  cases h with
  | load family_eq implied index_fits value_lt =>
    rw [← hopcode] at family_eq implied
    exact .load family_eq implied index_fits value_lt
  | @branch name symbol family_eq raw_eq get_eq index_lt =>
    rw [← hopcode] at family_eq
    rw [← hraw] at raw_eq
    have hname := hindex name
    rw [get_eq, Option.map_some] at hname
    obtain ⟨symbol', hget, hsame⟩ := Option.map_eq_some_iff.1 hname
    exact .branch family_eq raw_eq hget (hsame.trans_lt index_lt)
  | immediate family_eq value_lt =>
    rw [← hopcode] at family_eq value_lt
    exact .immediate family_eq value_lt
  | bare family_eq =>
    rw [← hopcode] at family_eq
    exact .bare family_eq

namespace Draft

/-- Every command has the operands that its opcode asks for. -/
def IsResolved (draft : Draft) : Prop :=
  ∀ command ∈ draft.commands,
    Operand.Resolved draft.symbols draft.commands.length command command.operands

section

variable (constants : Constants) (alignment : UInt16) (draft : Draft)

theorem getElem?_validated (place : ℕ) :
    (draft.validated constants alignment).commands[place]? =
      draft.commands[place]?.map fun command ↦ alignTarget alignment draft.targetIndices place
        (setOperands (command.resolve constants draft.symbols draft.commands.length) command) := by
  simp [validated, Function.comp_def]

theorem length_validated :
    (draft.validated constants alignment).commands.length = draft.commands.length := by
  simp [validated]

theorem get?_validated (name : Text) :
    (draft.validated constants alignment).symbols.get? name =
      (draft.symbols.get? name).map (alignSymbol alignment draft.namedTargets name) :=
  Table.get?_mapWithKey _ _ _

theorem commandIndex_alignSymbol (names : List Text) (name : Text) (symbol : Symbol) :
    (alignSymbol alignment names name symbol).commandIndex = symbol.commandIndex := by
  unfold alignSymbol
  split <;> rfl

theorem alignTarget_eq (indices : List ℕ) (place : ℕ) (command : Command) :
    ∃ alignment', alignTarget alignment indices place command =
      { command with alignment := alignment' } := by
  unfold alignTarget
  split
  · exact ⟨_, rfl⟩
  · exact ⟨command.alignment, rfl⟩

end

/-- A draft that passed validation is resolved. -/
theorem isResolved_validated {constants : Constants} (alignment : UInt16) {draft : Draft}
    (hfaults : ∀ command ∈ draft.commands,
      (command.resolve constants draft.symbols draft.commands.length).faults = []) :
    (draft.validated constants alignment).IsResolved := by
  intro command hmem
  obtain ⟨place, hplace⟩ := List.mem_iff_getElem?.1 hmem
  rw [getElem?_validated, Option.map_eq_some_iff] at hplace
  obtain ⟨written, hwritten, rfl⟩ := hplace
  obtain ⟨operands, hoperands, hresolved⟩ :=
    Command.isResolved_of_faults_eq_nil (hfaults written (List.mem_of_getElem? hwritten))
  obtain ⟨alignment', halign⟩ := alignTarget_eq alignment draft.targetIndices place (setOperands
    (written.resolve constants draft.symbols draft.commands.length) written)
  rw [halign, length_validated]
  simp only [setOperands, hoperands, Option.getD_some]
  refine hresolved.congr rfl rfl fun name ↦ ?_
  rw [get?_validated, Option.map_map]
  congr 1
  funext symbol
  exact commandIndex_alignSymbol _ _ _ symbol

/-- A branch of a resolved draft names a symbol whose command exists. -/
theorem exists_target {draft : Draft} (hresolved : draft.IsResolved) {command : Command}
    (hmem : command ∈ draft.commands) (hbranch : command.opcode.family = .branch) :
    ∃ name symbol target, command.rawOperands = [name] ∧ command.operands = [.address name] ∧
      draft.symbols.get? name = some symbol ∧
      draft.commands[symbol.commandIndex]? = some target := by
  have h := hresolved command hmem
  generalize hoperands : command.operands = operands at h
  cases h with
  | load family_eq => rw [hbranch] at family_eq; cases family_eq
  | branch family_eq raw_eq get_eq index_lt =>
    exact ⟨_, _, _, raw_eq, rfl, get_eq, List.getElem?_eq_getElem index_lt⟩
  | immediate family_eq => rw [hbranch] at family_eq; simp at family_eq
  | bare family_eq => rw [hbranch] at family_eq; cases family_eq

/-! ## Addresses of targets -/

theorem getElem?_placed {draft : Draft} {place : ℕ} {command : Command}
    (h : draft.commands[place]? = some command) :
    ∃ address, draft.layout[place]? = some address ∧
      draft.placed.commands[place]? = some (command.placedAt address) := by
  obtain ⟨hlt, -⟩ := List.getElem?_eq_some_iff.1 h
  have haddress : place < draft.layout.length := by rwa [length_layout]
  refine ⟨_, List.getElem?_eq_getElem haddress, ?_⟩
  rw [placed, List.getElem?_zipWith, h, List.getElem?_eq_getElem haddress]

/-- A symbol whose command exists gets the address of that command. -/
theorem get?_linkedSymbols {draft : Draft} {name : Text} {symbol : Symbol} {target : Command}
    (hsymbol : draft.symbols.get? name = some symbol)
    (htarget : draft.commands[symbol.commandIndex]? = some target) :
    ∃ address, draft.layout[symbol.commandIndex]? = some address ∧
      draft.linkedSymbols.get? name =
        some { symbol with address := some (UInt16.ofNat address) } := by
  obtain ⟨address, haddress, hplaced⟩ := getElem?_placed htarget
  refine ⟨address, haddress, ?_⟩
  rw [linkedSymbols, resolvedSymbols, Table.get?_mapWithKey]
  change (draft.symbols.get? name).map (Symbol.placed draft.placed.commands) = _
  rw [hsymbol, Option.map_some, Symbol.placed, hplaced]
  rfl

/-- A branch of a linked draft names a symbol that has the address of its command. -/
theorem exists_linked_target {draft : Draft} (hresolved : draft.IsResolved) (report : Report)
    {command : Command} (hmem : command ∈ (draft.linked report).commands)
    (hbranch : command.opcode.family = .branch) :
    ∃ name symbol target, command.target? = some name ∧
      (draft.linked report).symbols.get? name = some symbol ∧
      (draft.linked report).commands[symbol.commandIndex]? = some target ∧
      symbol.address = some target.address := by
  obtain ⟨place, hplace⟩ := List.mem_iff_getElem?.1 hmem
  rw [linked, List.getElem?_map, Option.map_eq_some_iff] at hplace
  obtain ⟨placedCommand, hplaced, rfl⟩ := hplace
  obtain ⟨written, address, hwritten, -, rfl⟩ := List.getElem?_zipWith_eq_some.1 hplaced
  have hsame := Command.unlinked_encoded draft.linkedSymbols (written.placedAt address)
  have hopcode := congrArg Command.opcode hsame
  have htarget := congrArg Command.target? hsame
  obtain ⟨name, symbol, target, -, hoperands, hsymbol, hcommand⟩ :=
    exists_target hresolved (List.mem_of_getElem? hwritten) (hopcode ▸ hbranch :)
  obtain ⟨targetAddress, haddress, hlinked⟩ := get?_linkedSymbols hsymbol hcommand
  obtain ⟨address', haddress', hplacedTarget⟩ := getElem?_placed hcommand
  obtain rfl : targetAddress = address' := Option.some.inj (haddress.symm.trans haddress')
  have hcommandLinked : (draft.linked report).commands[symbol.commandIndex]? =
      some ((target.placedAt targetAddress).encoded draft.linkedSymbols) := by
    rw [linked, List.getElem?_map, hplacedTarget, Option.map_some]
  have hname : written.target? = some name := by
    simp [Command.target?, hoperands]
  refine ⟨name, _, _, htarget.trans hname, hlinked, hcommandLinked, ?_⟩
  rw [Command.address_encoded]
  rfl

end Draft

/-! ## Alignment of targets -/

namespace Reader

theorem alignment_of_instruction {reader : Reader} {line : ℕ} {flags : FlagSet}
    {tokens : List Text} {command : Command}
    (h : (reader.instruction line flags tokens).2 = some command) : command.alignment = 1 := by
  cases tokens with
  | nil => cases h
  | cons token operands =>
    simp only [instruction] at h
    split at h
    · cases h
    · split at h
      · cases h
      · obtain rfl := Option.some.inj h
        rfl

/-- Commands are read with the least alignment. -/
theorem alignment_of_line {reader : Reader} {source : SourceLine} {command : Command}
    (h : (reader.line source).2 = .ok (some command)) : command.alignment = 1 := by
  simp only [line] at h
  split at h
  · simp only [definition] at h
    split at h
    · cases h
    · split at h <;> cases h
  · exact alignment_of_instruction (Except.ok.inj h)

theorem alignment_of_lines {reader : Reader} {source : List SourceLine} {commands : List Command}
    (h : (reader.lines source).2 = .ok commands) :
    ∀ command ∈ commands, command.alignment = 1 := by
  induction source generalizing reader commands with
  | nil =>
    obtain rfl := Except.ok.inj h
    exact List.forall_mem_nil _
  | cons first rest ih =>
    rw [lines] at h
    rcases hline : reader.line first with ⟨next, failure | found⟩
    · rw [hline] at h
      cases h
    · rw [hline] at h
      simp only at h
      rcases hlines : (next.lines rest).2 with failure | more
      · rw [hlines] at h
        cases h
      · rw [hlines] at h
        obtain rfl := Except.ok.inj h
        intro command hmem
        rcases List.mem_append.1 hmem with hfirst | hrest
        · obtain rfl : found = some command := by simpa using hfirst
          exact alignment_of_line (by rw [hline])
        · exact ih hlines command hrest

theorem alignment_of_read {reader next : Reader} {source : List SourceLine}
    {commands : List Command} (h : reader.read source = (next, .ok commands)) :
    ∀ command ∈ commands, command.alignment = 1 := by
  unfold read at h
  rcases hlines : reader.lines source with ⟨last, failure | found⟩
  · rw [hlines] at h
    cases h
  · rw [hlines] at h
    rcases hfinish : last.finish (source.getLast?.map SourceLine.number) with ⟨final, failure | ⟨⟩⟩
    · simp only [hfinish] at h
      cases h
    · simp only [hfinish] at h
      obtain rfl := Except.ok.inj (congrArg Prod.snd h)
      exact alignment_of_lines (by rw [hlines])

end Reader

namespace Draft

theorem max_one_eq {alignment : UInt16} (hzero : alignment ≠ 0) : max 1 alignment = alignment := by
  have hpos : alignment.toNat ≠ 0 := fun h ↦ hzero (UInt16.toNat_inj.1 h)
  apply UInt16.toNat_inj.1
  rw [toNat_max, UInt16.toNat_one, Nat.max_eq_right (Nat.one_le_iff_ne_zero.2 hpos)]

/-- The command that a branch goes to has the alignment of targets. -/
theorem alignment_of_mem_targetIndices {constants : Constants} {alignment : UInt16} {draft : Draft}
    (hone : ∀ command ∈ draft.commands, command.alignment = 1) (hzero : alignment ≠ 0) {place : ℕ}
    (hplace : place ∈ draft.targetIndices) {command : Command}
    (hcommand : (draft.validated constants alignment).commands[place]? = some command) :
    command.alignment = alignment := by
  rw [getElem?_validated, Option.map_eq_some_iff] at hcommand
  obtain ⟨written, hwritten, rfl⟩ := hcommand
  rw [alignTarget, if_pos (List.contains_iff_mem.2 hplace)]
  change max written.alignment alignment = alignment
  rw [hone written (List.mem_of_getElem? hwritten), max_one_eq hzero]

/-- The symbols that branches of a validated draft name are those they were written with. -/
theorem mem_targetIndices {constants : Constants} {alignment : UInt16} {draft : Draft}
    {command : Command} {name : Text} {symbol : Symbol}
    (hmem : command ∈ (draft.validated constants alignment).commands)
    (hbranch : command.opcode.family = .branch) (hraw : command.rawOperands = [name])
    (hsymbol : (draft.validated constants alignment).symbols.get? name = some symbol) :
    symbol.commandIndex ∈ draft.targetIndices := by
  obtain ⟨place, hplace⟩ := List.mem_iff_getElem?.1 hmem
  rw [getElem?_validated, Option.map_eq_some_iff] at hplace
  obtain ⟨written, hwritten, rfl⟩ := hplace
  obtain ⟨alignment', halign⟩ := alignTarget_eq alignment draft.targetIndices place (setOperands
    (written.resolve constants draft.symbols draft.commands.length) written)
  rw [halign] at hbranch hraw
  have hnamed : namedTarget? written = some name := by
    unfold namedTarget?
    rw [show written.opcode.family = .branch from hbranch,
      show written.rawOperands = [name] from hraw]
  rw [get?_validated, Option.map_eq_some_iff] at hsymbol
  obtain ⟨found, hfound, rfl⟩ := hsymbol
  rw [commandIndex_alignSymbol]
  refine List.mem_filterMap.2
    ⟨name, List.mem_filterMap.2 ⟨written, ?_, hnamed⟩, by rw [hfound]; rfl⟩
  exact List.mem_of_getElem? hwritten

/-- Every branch names a symbol that stands at an even address of the layout. -/
def HasEvenTargets (draft : Draft) : Prop :=
  ∀ command ∈ draft.commands, command.opcode.family = .branch → ∃ name symbol target address,
    command.operands = [.address name] ∧ draft.symbols.get? name = some symbol ∧
      draft.commands[symbol.commandIndex]? = some target ∧
      draft.layout[symbol.commandIndex]? = some address ∧ 2 ∣ address

theorem hasEvenTargets_validated {constants : Constants} {alignment : UInt16} {draft : Draft}
    (hresolved : (draft.validated constants alignment).IsResolved)
    (hone : ∀ command ∈ draft.commands, command.alignment = 1) (hzero : alignment ≠ 0)
    (heven : 2 ∣ alignment.toNat) : (draft.validated constants alignment).HasEvenTargets := by
  intro command hmem hbranch
  obtain ⟨name, symbol, target, hraw, hoperands, hsymbol, htarget⟩ :=
    exists_target hresolved hmem hbranch
  obtain ⟨address, haddress, -⟩ := getElem?_placed htarget
  refine ⟨name, symbol, target, address, hoperands, hsymbol, htarget, haddress, ?_⟩
  have halignment := alignment_of_mem_targetIndices hone hzero
    (mem_targetIndices hmem hbranch hraw hsymbol) htarget
  refine Layout.dvd_of_getElem?_addresses ?_ haddress heven hzero
  rw [List.getElem?_map, htarget, Option.map_some, halignment]

end Draft

end Sequencer
