import Mathlib
import Sequencer.Proofs.MemoryImage
import Sequencer.Proofs.Reading

/-!
# Where the commands and symbols of a program stand

Validation raises the alignment of a symbol that a branch names and of the command it goes to, in
whatever order branches and labels come, and linking lays the commands out by these alignments. What
is left in the program can be told from the program alone: which commands are aligned, which symbols
are, and where each of them stands.
-/

namespace Sequencer

namespace Command

/-- The command is a branch, and goes to the symbol of this name. -/
def BranchesTo (command : Command) (name : Text) : Prop :=
  command.opcode.family = .branch ∧ command.target? = some name

/-- Once operands are resolved, a branch goes to the symbol that it was written with. -/
theorem branchesTo_iff {symbols : Symbols} {count : ℕ} {command : Command}
    (h : Operand.Resolved symbols count command command.operands) {name : Text} :
    command.BranchesTo name ↔ Draft.namedTarget? command = some name := by
  unfold BranchesTo Draft.namedTarget? target?
  generalize command.operands = operands at h ⊢
  cases h with
  | load family_eq => simp [family_eq]
  | branch family_eq raw_eq => simp [family_eq, raw_eq]
  | immediate family_eq => rcases family_eq with h | h <;> simp [h]
  | bare family_eq => simp [family_eq]

end Command

theorem Symbol.placed_eq (commands : List Command) (symbol : Symbol) :
    symbol.placed commands = { symbol with
      address := (commands.map Command.address)[symbol.commandIndex]?.or symbol.address } := by
  unfold placed
  rw [List.getElem?_map]
  cases commands[symbol.commandIndex]? <;> rfl

namespace Draft

variable {draft other result : Draft} {constants : Constants} {alignment : UInt16}

/-! ## Names that passes keep -/

theorem mem_namedTargets {name : Text} :
    name ∈ draft.namedTargets ↔ ∃ command ∈ draft.commands, namedTarget? command = some name :=
  List.mem_filterMap

theorem mem_targetIndices_iff {place : ℕ} :
    place ∈ draft.targetIndices ↔ ∃ name ∈ draft.namedTargets,
      (draft.symbols.get? name).map Symbol.commandIndex = some place :=
  List.mem_filterMap

/-- What validation gives a command does not matter to a function that does not look at it. -/
theorem map_validated {β : Type} {f : Command → β}
    (hf : ∀ command operands alignment, f { command with operands, alignment } = f command)
    (constants : Constants) (alignment : UInt16) (draft : Draft) :
    (draft.validated constants alignment).commands.map f = draft.commands.map f := by
  apply List.ext_getElem?
  intro place
  rw [List.getElem?_map, List.getElem?_map, getElem?_validated, Option.map_map]
  congr 1
  funext command
  obtain ⟨alignment', halign⟩ := alignTarget_eq alignment draft.targetIndices place (setOperands
    (command.resolve constants draft.symbols draft.commands.length) command)
  rw [Function.comp_apply, halign]
  exact hf command _ alignment'

theorem commandIndex_validated (draft : Draft) (name : Text) :
    ((draft.validated constants alignment).symbols.get? name).map Symbol.commandIndex =
      (draft.symbols.get? name).map Symbol.commandIndex := by
  rw [get?_validated, Option.map_map]
  congr 1
  funext symbol
  exact commandIndex_alignSymbol _ _ _ symbol

/-- What linking gives a command does not matter to a function that does not look at it. -/
theorem map_of_link {β : Type} {f : Command → β} (hf : ∀ command, f command.unlinked = f command)
    (h : draft.link = (result, .ok ())) : result.commands.map f = draft.commands.map f := by
  have hsplit (commands : List Command) :
      commands.map f = (commands.map Command.unlinked).map f := by
    rw [List.map_map]
    exact List.map_congr_left fun command _ ↦ (hf command).symm
  rw [hsplit, map_unlinked_of_link h, ← hsplit]

theorem length_of_link (h : draft.link = (result, .ok ())) :
    result.commands.length = draft.commands.length := by
  simpa using congrArg List.length (map_unlinked_of_link h)

theorem get?_of_link (h : draft.link = (result, .ok ())) (name : Text) :
    result.symbols.get? name = (draft.symbols.get? name).map (Symbol.placed result.commands) := by
  obtain ⟨-, ⟨report, rfl⟩, -⟩ := of_link_eq_ok h
  have haddresses : (draft.linked report).commands.map Command.address =
      draft.placed.commands.map Command.address := by
    simp only [linked, List.map_map, Function.comp_def, Command.address_encoded]
  calc
    (draft.linked report).symbols.get? name =
        (draft.symbols.get? name).map (Symbol.placed draft.placed.commands) :=
      Table.get?_mapWithKey _ _ _
    _ = (draft.symbols.get? name).map (Symbol.placed (draft.linked report).commands) := by
      congr 1
      funext symbol
      rw [Symbol.placed_eq, Symbol.placed_eq, haddresses]

theorem commandIndex_of_link (h : draft.link = (result, .ok ())) (name : Text) :
    (result.symbols.get? name).map Symbol.commandIndex =
      (draft.symbols.get? name).map Symbol.commandIndex := by
  rw [get?_of_link h, Option.map_map]
  congr 1
  funext symbol
  rw [Function.comp_apply, Symbol.placed_eq]

/-- Addresses and words do not matter to whether a draft is resolved. -/
theorem IsResolved.congr (hresolved : draft.IsResolved)
    (hcommands : result.commands.map Command.unlinked = draft.commands.map Command.unlinked)
    (hindex : ∀ name, (result.symbols.get? name).map Symbol.commandIndex =
      (draft.symbols.get? name).map Symbol.commandIndex) : result.IsResolved := by
  intro command hmem
  have hunlinked : command.unlinked ∈ draft.commands.map Command.unlinked := by
    rw [← hcommands]
    exact List.mem_map_of_mem hmem
  have hlength : result.commands.length = draft.commands.length := by
    simpa using congrArg List.length hcommands
  obtain ⟨written, hwritten, hsame⟩ := List.mem_map.1 hunlinked
  have hoperands : written.operands = command.operands := (congrArg Command.operands hsame :)
  rw [hlength, ← hoperands]
  apply (hresolved written hwritten).congr
  · exact (congrArg Command.opcode hsame.symm :)
  · exact (congrArg Command.rawOperands hsame.symm :)
  · exact hindex

end Draft

/-! ## The layout of a program -/

/-- The passes behind a program: reading left `written` and its tables, validation found no fault in
them, and linking gave the program. -/
structure Program.ComesFrom (settings : Settings) (source : List SourceLine) (reader : Reader)
    (written : List Command) (program : Program) : Prop where
  read_eq : (Reader.start settings.warningLimit).read source = (reader, .ok written)
  faultless : ∀ command ∈ written,
    (command.resolve reader.constants reader.symbols written.length).faults = []
  link_eq : ((reader.draft written).validated reader.constants settings.branchAlignment).link =
    (program.toDraft, .ok ())
  constants_eq : program.constants = reader.constants
  alignment_ne_zero : settings.branchAlignment ≠ 0

theorem exists_comesFrom_of_assemble {settings : Settings} {source : List SourceLine}
    {program : Program} (h : (assemble settings source).2 = .ok program) :
    ∃ reader written, program.ComesFrom settings source reader written := by
  obtain ⟨hsettings, hinto⟩ := assemble_eq_assembleInto h
  rw [hinto] at h
  obtain ⟨reader, written, validated, hread, hvalidate, hlink, hconstants⟩ :=
    exists_passes_of_assembleInto h
  obtain ⟨rfl, -, hfaults⟩ := Draft.of_validate_eq_ok hvalidate
  refine ⟨reader, written, hread, hfaults, hlink, hconstants, fun hzero ↦ ?_⟩
  rw [Settings.validate, if_pos (.inl hzero)] at hsettings
  cases hsettings

namespace Program

variable {settings : Settings} {source : List SourceLine} {reader : Reader}
  {written : List Command} {program : Program}

/-- Some branch of the program goes to the symbol of this name. -/
def IsNamed (program : Program) (name : Text) : Prop :=
  ∃ branch ∈ program.commands, branch.BranchesTo name

/-- Some branch of the program goes to a symbol that stands for the command at this place. -/
def IsTarget (program : Program) (place : ℕ) : Prop :=
  ∃ name symbol, program.IsNamed name ∧ program.symbols.get? name = some symbol ∧
    symbol.commandIndex = place

/-- How the commands and symbols of a program stand in the memory, when targets of branches are
aligned to `alignment`. -/
structure IsLaidOut (alignment : UInt16) (program : Program) : Prop where
  first_address : ∀ command, program.commands[0]? = some command → command.address = 0
  ordered : program.IsOrdered
  command_alignment : ∀ place command, program.commands[place]? = some command →
    (program.IsTarget place → command.alignment = alignment) ∧
      (¬ program.IsTarget place → command.alignment = 1)
  symbol_alignment : ∀ name symbol, program.symbols.get? name = some symbol →
    (program.IsNamed name → symbol.alignment = alignment) ∧
      (¬ program.IsNamed name → symbol.alignment = 1)
  dvd_address : ∀ command ∈ program.commands, command.alignment.toNat ∣ command.address.toNat
  symbol_address : ∀ name symbol, program.symbols.get? name = some symbol →
    symbol.address = program.commands[symbol.commandIndex]?.map Command.address
  named_symbol : ∀ name, program.IsNamed name → ∃ symbol address,
    program.symbols.get? name = some symbol ∧ symbol.commandIndex < program.commands.length ∧
      symbol.address = some address ∧ alignment.toNat ∣ address.toNat

namespace ComesFrom

variable (h : program.ComesFrom settings source reader written)

include h

theorem isResolved : program.IsResolved :=
  (Draft.isResolved_validated _ h.faultless).congr (Draft.map_unlinked_of_link h.link_eq)
    (Draft.commandIndex_of_link h.link_eq)

/-- The passes leave alone what a branch is written with. -/
theorem map_namedTarget? :
    program.commands.map Draft.namedTarget? = written.map Draft.namedTarget? := by
  calc
    program.commands.map Draft.namedTarget? = ((reader.draft written).validated reader.constants
        settings.branchAlignment).commands.map Draft.namedTarget? :=
      Draft.map_of_link (fun _ ↦ rfl) h.link_eq
    _ = written.map Draft.namedTarget? := Draft.map_validated (fun _ _ _ ↦ rfl) _ _ _

theorem isNamed_iff {name : Text} :
    program.IsNamed name ↔ name ∈ (reader.draft written).namedTargets := by
  have hnames : program.namedTargets = (reader.draft written).namedTargets := by
    have hmap (draft : Draft) :
        draft.namedTargets = (draft.commands.map Draft.namedTarget?).filterMap id := by
      rw [List.filterMap_map, Function.id_comp]
      rfl
    rw [hmap, hmap, h.map_namedTarget?]
    rfl
  rw [← hnames, Draft.mem_namedTargets]
  apply exists_congr
  intro command
  apply and_congr_right
  intro hmem
  exact Command.branchesTo_iff (h.isResolved command hmem)

theorem commandIndex_eq (name : Text) :
    (program.symbols.get? name).map Symbol.commandIndex =
      (reader.symbols.get? name).map Symbol.commandIndex := by
  rw [Draft.commandIndex_of_link h.link_eq, Draft.commandIndex_validated]
  rfl

theorem isTarget_iff {place : ℕ} :
    program.IsTarget place ↔ place ∈ (reader.draft written).targetIndices := by
  simp only [Draft.mem_targetIndices_iff, ← h.isNamed_iff]
  apply exists_congr
  intro name
  rw [exists_and_left, ← Option.map_eq_some_iff, h.commandIndex_eq]
  rfl

theorem map_alignment : program.commands.map Command.alignment = ((reader.draft written).validated
    reader.constants settings.branchAlignment).commands.map Command.alignment :=
  Draft.map_of_link (fun _ ↦ rfl) h.link_eq

/-- Commands are read with alignment one, and only targets get another. -/
theorem command_alignment {place : ℕ} {command : Command}
    (hcommand : program.commands[place]? = some command) :
    (program.IsTarget place → command.alignment = settings.branchAlignment) ∧
      (¬ program.IsTarget place → command.alignment = 1) := by
  have hone := Reader.alignment_of_read h.read_eq
  have hplace := congrArg (fun alignments ↦ alignments[place]?) h.map_alignment
  simp only [List.getElem?_map, hcommand, Option.map_some] at hplace
  obtain ⟨validated, hvalidated, hsame⟩ := Option.map_eq_some_iff.1 hplace.symm
  rw [← hsame, h.isTarget_iff]
  refine ⟨fun htarget ↦ Draft.alignment_of_mem_targetIndices hone h.alignment_ne_zero htarget
    hvalidated, fun htarget ↦ ?_⟩
  rw [Draft.getElem?_validated, Option.map_eq_some_iff] at hvalidated
  obtain ⟨first, hfirst, rfl⟩ := hvalidated
  rw [Draft.alignTarget, if_neg (by simpa using htarget)]
  exact hone first (List.mem_of_getElem? hfirst)

/-- A symbol of the program is a fresh one that was aligned if it is named, and placed. -/
theorem exists_fresh {name : Text} {symbol : Symbol}
    (hsymbol : program.symbols.get? name = some symbol) :
    ∃ fresh : Symbol, fresh.IsFresh ∧ reader.symbols.get? name = some fresh ∧
      symbol = (Draft.alignSymbol settings.branchAlignment (reader.draft written).namedTargets name
        fresh).placed program.commands := by
  rw [Draft.get?_of_link h.link_eq, Draft.get?_validated, Option.map_map,
    Option.map_eq_some_iff] at hsymbol
  obtain ⟨fresh, hfresh, rfl⟩ := hsymbol
  obtain ⟨last, hlines, -, hsymbols⟩ := Reader.exists_lines_of_read h.read_eq
  have hextends := Reader.extends_lines (Reader.start settings.warningLimit) source
  rw [hlines] at hextends
  refine ⟨fresh, ?_, hfresh, rfl⟩
  apply (hextends.fresh name fresh (hsymbols ▸ hfresh)).resolve_left
  intro hstart
  cases hstart

theorem symbol_alignment {name : Text} {symbol : Symbol}
    (hsymbol : program.symbols.get? name = some symbol) :
    (program.IsNamed name → symbol.alignment = settings.branchAlignment) ∧
      (¬ program.IsNamed name → symbol.alignment = 1) := by
  obtain ⟨fresh, ⟨hone, -⟩, -, rfl⟩ := h.exists_fresh hsymbol
  rw [Symbol.placed_eq, h.isNamed_iff, Draft.alignSymbol]
  constructor
  · intro hnamed
    rw [if_pos (by simpa using hnamed)]
    change max fresh.alignment settings.branchAlignment = settings.branchAlignment
    rw [hone, Draft.max_one_eq h.alignment_ne_zero]
  · intro hnamed
    rw [if_neg (by simpa using hnamed)]
    exact hone

theorem symbol_address {name : Text} {symbol : Symbol}
    (hsymbol : program.symbols.get? name = some symbol) :
    symbol.address = program.commands[symbol.commandIndex]?.map Command.address := by
  obtain ⟨fresh, ⟨-, hnone⟩, -, rfl⟩ := h.exists_fresh hsymbol
  have haddress (names : List Text) :
      (Draft.alignSymbol settings.branchAlignment names name fresh).address = none := by
    unfold Draft.alignSymbol
    split <;> exact hnone
  rw [Symbol.placed_eq, haddress, Option.or_none, List.getElem?_map]

theorem map_address : (program.commands.map fun command ↦ command.address.toNat) =
    ((reader.draft written).validated reader.constants settings.branchAlignment).layout := by
  obtain ⟨hfits, ⟨report, hlinked⟩, -⟩ := Draft.of_link_eq_ok h.link_eq
  rw [hlinked]
  exact Draft.map_address_linked hfits report

theorem getElem?_layout {place : ℕ} {command : Command}
    (hcommand : program.commands[place]? = some command) :
    ((reader.draft written).validated reader.constants settings.branchAlignment).layout[place]? =
      some command.address.toNat := by
  rw [← h.map_address, List.getElem?_map, hcommand, Option.map_some]

/-- Every command stands at a multiple of its alignment. -/
theorem dvd_address {place : ℕ} {command : Command}
    (hcommand : program.commands[place]? = some command) :
    command.alignment.toNat ∣ command.address.toNat := by
  have hzero : command.alignment ≠ 0 := by
    by_cases htarget : program.IsTarget place
    · rw [(h.command_alignment hcommand).1 htarget]
      exact h.alignment_ne_zero
    · rw [(h.command_alignment hcommand).2 htarget]
      decide
  refine Layout.dvd_of_getElem?_addresses ?_ (h.getElem?_layout hcommand) dvd_rfl hzero
  rw [← h.map_alignment, List.getElem?_map, hcommand, Option.map_some]

theorem named_symbol {name : Text} (hnamed : program.IsNamed name) :
    ∃ symbol address, program.symbols.get? name = some symbol ∧
      symbol.commandIndex < program.commands.length ∧ symbol.address = some address ∧
      settings.branchAlignment.toNat ∣ address.toNat := by
  obtain ⟨branch, hmem, hbranch, htarget⟩ := id hnamed
  obtain ⟨name', symbol, target, -, hoperands, hsymbol, hcommand⟩ :=
    Draft.exists_target h.isResolved hmem hbranch
  obtain rfl : name' = name := by simpa [Command.target?, hoperands] using htarget
  have halignment := (h.command_alignment hcommand).1 ⟨_, symbol, hnamed, hsymbol, rfl⟩
  refine ⟨symbol, target.address, hsymbol, (List.getElem?_eq_some_iff.1 hcommand).1, ?_, ?_⟩
  · rw [h.symbol_address hsymbol, hcommand, Option.map_some]
  · rw [← halignment]
    exact h.dvd_address hcommand

end ComesFrom

/-- The layout of every assembled program. The first command stands at address zero and addresses
ascend. Just the commands that branches go to have the alignment of the settings, and among symbols
just those that branches name. Commands stand at multiples of their alignment, and symbols where
their commands stand; a symbol without a command has no address, and no branch names it. -/
theorem isLaidOut_of_assemble (hassemble : (assemble settings source).2 = .ok program) :
    program.IsLaidOut settings.branchAlignment := by
  obtain ⟨reader, written, h⟩ := exists_comesFrom_of_assemble hassemble
  refine {
    first_address := ?_
    ordered := (isLinked_of_assemble hassemble).ordered
    command_alignment := fun place command ↦ h.command_alignment
    symbol_alignment := fun name symbol ↦ h.symbol_alignment
    dvd_address := ?_
    symbol_address := fun name symbol ↦ h.symbol_address
    named_symbol := fun name ↦ h.named_symbol }
  · intro command hcommand
    apply UInt16.toNat_inj.1
    exact Layout.eq_zero_of_getElem?_addresses (h.getElem?_layout hcommand)
  · intro command hmem
    obtain ⟨place, hplace⟩ := List.mem_iff_getElem?.1 hmem
    exact h.dvd_address hplace

/-- Two labels on one command of which only one is named, branches forward and back, and a label
that trails the program. -/
theorem isLaidOut_of_assemble_shared :
    ∃ program, (assemble { branchAlignment := 4 } (SourceLine.ofText
        "@a:\n@b: NOOP 1\nJUMP @c\nNOOP 2\n@c: CALL @b\n@end:".toList)).2 = .ok program ∧
      program.addresses = [0, 1, 2, 4] ∧ program.commands.map Command.alignment = [4, 1, 1, 4] ∧
      program.symbols.entries.map (fun entry ↦ (entry.2.alignment, entry.2.address)) =
        [(1, some 0), (4, some 0), (4, some 4), (1, none)] ∧
      program.IsLaidOut 4 := by
  generalize hsource : SourceLine.ofText
    "@a:\n@b: NOOP 1\nJUMP @c\nNOOP 2\n@c: CALL @b\n@end:".toList = source
  have hresult : (assemble { branchAlignment := 4 } source).2.toOption.map (fun program ↦
      (program.addresses, program.commands.map Command.alignment,
        program.symbols.entries.map fun entry ↦ (entry.2.alignment, entry.2.address))) =
      some ([0, 1, 2, 4], [4, 1, 1, 4],
        [(1, some 0), (4, some 0), (4, some 4), (1, none)]) := by
    rw [← hsource]
    decide +kernel
  rcases hassemble : (assemble { branchAlignment := 4 } source).2 with failure | program
  · simp [hassemble, Except.toOption] at hresult
  · simp only [hassemble, Except.toOption, Option.map_some, Option.some.injEq,
      Prod.mk.injEq] at hresult
    exact ⟨program, rfl, hresult.1, hresult.2.1, hresult.2.2, isLaidOut_of_assemble hassemble⟩

end Program

end Sequencer
