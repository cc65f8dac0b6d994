import Mathlib
import Sequencer.Proofs.Growth
import Sequencer.Proofs.ProgramLayout

/-!
# Programs that are written on

A source may go on after the lines of a program. Its further lines can use constants and labels of
the program, and give a command to a label that ends it. Only a branch back among its commands can
reach them, by the alignment of its target. Without such branches each pass keeps the program as a
part of the longer one, at its start.
-/

namespace Sequencer

/-- Encoding looks up no symbol but the target of the command. -/
theorem Command.encode_congr {symbols others : Symbols} {command : Command}
    (h : ∀ name, command.target? = some name → others.get? name = symbols.get? name) :
    command.encode others = command.encode symbols := by
  have hbranch : command.branchValue others = command.branchValue symbols := by
    unfold branchValue
    cases htarget : command.target? with
    | none => rfl
    | some name => simp only [h name htarget]
  unfold encode
  rw [hbranch]

/-- Once operands are resolved, the target of a command has a place among the commands. -/
theorem Operand.Resolved.exists_symbol {symbols : Symbols} {count : ℕ} {command : Command}
    (h : Operand.Resolved symbols count command command.operands) {name : Text}
    (htarget : command.target? = some name) :
    ∃ symbol, symbols.get? name = some symbol ∧ symbol.commandIndex < count := by
  unfold Command.target? at htarget
  generalize command.operands = operands at h htarget
  cases h with
  | load => simp at htarget
  | branch family_eq raw_eq get_eq index_lt =>
    obtain rfl := Option.some.inj htarget
    exact ⟨_, get_eq, index_lt⟩
  | immediate => simp at htarget
  | bare => simp at htarget

namespace Draft

/-- The commands of one draft come first in another, which has the symbols that stand for them. -/
structure Extends (draft longer : Draft) : Prop where
  commands : draft.commands <+: longer.commands
  symbols : ∀ name symbol, draft.symbols.get? name = some symbol →
    symbol.commandIndex < draft.commands.length → longer.symbols.get? name = some symbol

variable {draft longer : Draft} {constants more : Constants}

theorem Extends.getElem?_commands (h : draft.Extends longer) {place : ℕ}
    (hplace : place < draft.commands.length) :
    longer.commands[place]? = draft.commands[place]? := by
  obtain ⟨rest, hrest⟩ := h.commands
  rw [← hrest, List.getElem?_append_left hplace]

/-! ## Validation -/

section

variable (h : draft.Extends longer)
  (hfaultless : ∀ command ∈ draft.commands,
    (command.resolve constants draft.symbols draft.commands.length).faults = [])
  (hlater : ∀ command ∈ longer.commands.drop draft.commands.length, ∀ name symbol,
    namedTarget? command = some name → longer.symbols.get? name = some symbol →
      draft.commands.length ≤ symbol.commandIndex)

include hfaultless in
theorem exists_symbol_of_mem_namedTargets {name : Text} (hname : name ∈ draft.namedTargets) :
    ∃ symbol, draft.symbols.get? name = some symbol ∧
      symbol.commandIndex < draft.commands.length := by
  obtain ⟨command, hmem, htarget⟩ := mem_namedTargets.1 hname
  obtain ⟨operands, -, hresolved⟩ :=
    Command.isResolved_of_faults_eq_nil (hfaultless command hmem)
  unfold namedTarget? at htarget
  cases hresolved with
  | load family_eq => simp [family_eq] at htarget
  | branch family_eq raw_eq get_eq index_lt =>
    simp only [family_eq, raw_eq, Option.some.injEq] at htarget
    exact ⟨_, htarget ▸ get_eq, index_lt⟩
  | immediate family_eq => rcases family_eq with h | h <;> simp [h] at htarget
  | bare family_eq => simp [family_eq] at htarget

include h hlater

/-- A name whose symbol stands for one of the first commands is named by one of them, if at all. -/
theorem Extends.mem_namedTargets_iff {name : Text} {symbol : Symbol}
    (hsymbol : longer.symbols.get? name = some symbol)
    (hindex : symbol.commandIndex < draft.commands.length) :
    name ∈ longer.namedTargets ↔ name ∈ draft.namedTargets := by
  obtain ⟨rest, hrest⟩ := h.commands
  rw [← hrest, List.drop_left] at hlater
  rw [mem_namedTargets, mem_namedTargets, ← hrest]
  constructor
  · rintro ⟨command, hmem, htarget⟩
    refine ⟨command, (List.mem_append.1 hmem).resolve_right fun hrest ↦ ?_, htarget⟩
    exact absurd (hlater command hrest name symbol htarget hsymbol) (by omega)
  · rintro ⟨command, hmem, htarget⟩
    exact ⟨command, List.mem_append_left rest hmem, htarget⟩

include hfaultless

theorem Extends.mem_targetIndices_iff {place : ℕ} (hplace : place < draft.commands.length) :
    place ∈ longer.targetIndices ↔ place ∈ draft.targetIndices := by
  simp only [Draft.mem_targetIndices_iff, Option.map_eq_some_iff]
  constructor
  · -- a name in use is known to the draft, so it cannot stand for anything else beyond it
    rintro ⟨name, hname, symbol, hsymbol, rfl⟩
    replace hname := (h.mem_namedTargets_iff hlater hsymbol hplace).1 hname
    obtain ⟨known, hknown, hindex⟩ := exists_symbol_of_mem_namedTargets hfaultless hname
    have hsame : known = symbol :=
      Option.some.inj ((h.symbols name known hknown hindex).symm.trans hsymbol)
    exact ⟨name, hname, symbol, hsame ▸ hknown, rfl⟩
  · rintro ⟨name, hname, symbol, hsymbol, rfl⟩
    have hlonger := h.symbols name symbol hsymbol hplace
    exact ⟨name, (h.mem_namedTargets_iff hlater hlonger hplace).2 hname, symbol, hlonger, rfl⟩

/-- Validation resolves the first commands as it does without those that follow, and aligns the same
ones among them. -/
theorem Extends.validated (alignment : UInt16)
    (hconstants : constants.values.Extends more.values) :
    (draft.validated constants alignment).Extends (longer.validated more alignment) where
  commands := by
    rw [List.prefix_iff_getElem?]
    intro place hplace
    have hlt : place < draft.commands.length := by rwa [length_validated] at hplace
    have htarget : longer.targetIndices.contains place = draft.targetIndices.contains place := by
      rw [Bool.eq_iff_iff, List.contains_iff_mem, List.contains_iff_mem]
      exact h.mem_targetIndices_iff hfaultless hlater hlt
    rw [← List.getElem?_eq_getElem hplace, getElem?_validated, getElem?_validated,
      h.getElem?_commands hlt, List.getElem?_eq_getElem hlt, Option.map_some, Option.map_some,
      Command.resolve_of_faults_eq_nil hconstants h.symbols h.commands.length_le
        (hfaultless _ (List.getElem_mem hlt))]
    unfold alignTarget
    rw [htarget]
  symbols := by
    intro name symbol hsymbol hindex
    rw [get?_validated, Option.map_eq_some_iff] at hsymbol
    obtain ⟨written, hwritten, rfl⟩ := hsymbol
    rw [commandIndex_alignSymbol, length_validated] at hindex
    have hlonger := h.symbols name written hwritten hindex
    have hnamed : longer.namedTargets.contains name = draft.namedTargets.contains name := by
      rw [Bool.eq_iff_iff, List.contains_iff_mem, List.contains_iff_mem]
      exact h.mem_namedTargets_iff hlater hlonger hindex
    rw [get?_validated, hlonger, Option.map_some]
    unfold alignSymbol
    rw [hnamed]

end

/-! ## Linking -/

theorem Extends.layout (h : draft.Extends longer) : draft.layout <+: longer.layout := by
  obtain ⟨rest, hrest⟩ := h.commands
  unfold Draft.layout
  rw [← hrest, List.map_append]
  exact Layout.addresses_prefix_append none _ _

theorem length_placed (draft : Draft) : draft.placed.commands.length = draft.commands.length := by
  simp [placed, length_layout]

theorem Extends.placed (h : draft.Extends longer) : draft.placed.Extends longer.placed where
  commands := by
    obtain ⟨rest, hrest⟩ := h.commands
    obtain ⟨beyond, hbeyond⟩ := h.layout
    refine ⟨List.zipWith Command.placedAt rest beyond, ?_⟩
    unfold Draft.placed
    rw [← hrest, ← hbeyond, List.zipWith_append draft.length_layout.symm]
  symbols := by
    rw [length_placed]
    exact h.symbols

theorem Extends.get?_linkedSymbols (h : draft.Extends longer) {name : Text} {symbol : Symbol}
    (hsymbol : draft.linkedSymbols.get? name = some symbol)
    (hindex : symbol.commandIndex < draft.commands.length) :
    longer.linkedSymbols.get? name = some symbol := by
  unfold linkedSymbols resolvedSymbols at hsymbol ⊢
  rw [Table.get?_mapWithKey, Option.map_eq_some_iff] at hsymbol
  obtain ⟨written, hwritten, rfl⟩ := hsymbol
  have hlt : written.commandIndex < draft.placed.commands.length := by
    rwa [Symbol.placed_eq, ← length_placed] at hindex
  rw [Table.get?_mapWithKey, h.placed.symbols name written hwritten hlt, Option.map_some]
  unfold Symbol.placed
  rw [h.placed.getElem?_commands hlt]

theorem IsResolved.placed (hresolved : draft.IsResolved) : draft.placed.IsResolved :=
  hresolved.congr (map_placed (fun _ _ ↦ rfl) draft) fun _ ↦ rfl

/-- The target of a command that is resolved is one of the symbols that stay as they are. -/
theorem Extends.encoded_eq (h : draft.Extends longer) (hresolved : draft.IsResolved)
    {command : Command} (hmem : command ∈ draft.placed.commands) :
    command.encoded longer.linkedSymbols = command.encoded draft.linkedSymbols := by
  have hencode : command.encode longer.linkedSymbols = command.encode draft.linkedSymbols := by
    apply Command.encode_congr
    intro name htarget
    obtain ⟨symbol, hsymbol, hindex⟩ := (hresolved.placed command hmem).exists_symbol htarget
    have hlinked : draft.linkedSymbols.get? name = some (symbol.placed draft.placed.commands) := by
      unfold linkedSymbols resolvedSymbols
      rw [Table.get?_mapWithKey, hsymbol, Option.map_some]
    rw [hlinked]
    apply h.get?_linkedSymbols hlinked
    rwa [Symbol.placed_eq, ← length_placed]
  unfold Command.encoded
  rw [hencode]

/-- Linking gives the first commands the addresses and words that they have without those that
follow. -/
theorem Extends.linked (h : draft.Extends longer) (hresolved : draft.IsResolved)
    (report report' : Report) : (draft.linked report).Extends (longer.linked report') where
  commands := by
    obtain ⟨rest, hrest⟩ := h.placed.commands
    refine ⟨rest.map (Command.encoded longer.linkedSymbols), ?_⟩
    unfold Draft.linked
    rw [← hrest, List.map_append]
    congr 1
    apply List.map_congr_left
    intro command hmem
    exact (h.encoded_eq hresolved hmem).symm
  symbols := by
    intro name symbol hsymbol hindex
    apply h.get?_linkedSymbols hsymbol
    simpa [Draft.linked, length_placed] using hindex

theorem Extends.of_link {linked linked' : Draft} (h : draft.Extends longer)
    (hresolved : draft.IsResolved) (hlink : draft.link = (linked, .ok ()))
    (hlink' : longer.link = (linked', .ok ())) : linked.Extends linked' := by
  obtain ⟨-, ⟨report, rfl⟩, -⟩ := of_link_eq_ok hlink
  obtain ⟨-, ⟨report', rfl⟩, -⟩ := of_link_eq_ok hlink'
  exact h.linked hresolved report report'

end Draft

/-! ## Reading on -/

/-- Reading on adds to the tables and to the commands. -/
theorem Reader.extends_of_read {reader first last : Reader} {front back : List SourceLine}
    {written all : List Command} (hfront : reader.read front = (first, .ok written))
    (hall : reader.read (front ++ back) = (last, .ok all)) :
    first.constants.values.Extends last.constants.values ∧
      (first.draft written).Extends (last.draft all) := by
  obtain ⟨between, hbetween, hconstants, hsymbols⟩ := exists_lines_of_read hfront
  obtain ⟨after, hafter, hconstants', hsymbols'⟩ := exists_lines_of_read hall
  rw [lines_append hbetween] at hafter
  obtain ⟨rfl, hcommands⟩ := Prod.mk.inj hafter
  obtain ⟨rest, -, rfl⟩ := Except.map_eq_ok_iff.1 hcommands
  have hextends := between.extends_lines back
  rw [hconstants, hconstants']
  refine ⟨hextends.constants, ⟨rest, rfl⟩, fun name symbol hsymbol _ ↦ ?_⟩
  change last.symbols.get? name = some symbol
  rw [hsymbols']
  apply hextends.symbols name symbol
  rw [← hsymbols]
  exact hsymbol

namespace Program

variable {settings : Settings} {source front back : List SourceLine} {reader : Reader}
  {written : List Command} {program longer : Program}

theorem ComesFrom.length_eq (h : program.ComesFrom settings source reader written) :
    program.commands.length = written.length := by
  rw [Draft.length_of_link h.link_eq, Draft.length_validated]
  rfl

/-- A branch of the program is written with the name of its target. -/
theorem ComesFrom.le_commandIndex (h : program.ComesFrom settings source reader written) {count : ℕ}
    (hlater : ∀ branch ∈ program.commands.drop count, ∀ name symbol, branch.BranchesTo name →
      program.symbols.get? name = some symbol → count ≤ symbol.commandIndex) :
    ∀ command ∈ written.drop count, ∀ name symbol, Draft.namedTarget? command = some name →
      reader.symbols.get? name = some symbol → count ≤ symbol.commandIndex := by
  intro command hmem name symbol htarget hsymbol
  have hnamed : some name ∈ (program.commands.drop count).map Draft.namedTarget? := by
    rw [List.map_drop, h.map_namedTarget?, ← List.map_drop, ← htarget]
    exact List.mem_map_of_mem hmem
  obtain ⟨branch, hbranch, hname⟩ := List.mem_map.1 hnamed
  have hindex := h.commandIndex_eq name
  rw [hsymbol, Option.map_some, Option.map_eq_some_iff] at hindex
  obtain ⟨linked, hlinked, hsame⟩ := hindex
  rw [← hsame]
  apply hlater branch hbranch name linked _ hlinked
  exact (Command.branchesTo_iff (h.isResolved branch (List.mem_of_mem_drop hbranch))).2 hname

/-- What follows a program does not reach back into it, unless a branch does. Where the lines of a
program begin a longer source, and no command beyond the program goes to one of its commands, the
longer program has the commands of the program first, in all that they are, with the symbols that
stand for them and all its constants. -/
theorem take_commands_of_assemble_append (hfront : (assemble settings front).2 = .ok program)
    (hall : (assemble settings (front ++ back)).2 = .ok longer)
    (hlater : ∀ branch ∈ longer.commands.drop program.commands.length, ∀ name symbol,
      branch.BranchesTo name → longer.symbols.get? name = some symbol →
        ¬ symbol.commandIndex < program.commands.length) :
    longer.commands.take program.commands.length = program.commands ∧
      (∀ name symbol, program.symbols.get? name = some symbol →
        symbol.commandIndex < program.commands.length →
          longer.symbols.get? name = some symbol) ∧
      ∀ name value, program.constants.values.get? name = some value →
        longer.constants.values.get? name = some value := by
  obtain ⟨first, written, hprogram⟩ := exists_comesFrom_of_assemble hfront
  obtain ⟨last, all, hlonger⟩ := exists_comesFrom_of_assemble hall
  obtain ⟨hconstants, hread⟩ := Reader.extends_of_read hprogram.read_eq hlonger.read_eq
  simp only [not_lt] at hlater
  rw [hprogram.length_eq] at hlater
  have hvalidated := hread.validated hprogram.faultless (hlonger.le_commandIndex hlater)
    settings.branchAlignment hconstants
  have hlinked := hvalidated.of_link (Draft.isResolved_validated _ hprogram.faultless)
    hprogram.link_eq hlonger.link_eq
  refine ⟨(List.prefix_iff_eq_take.1 hlinked.commands).symm, hlinked.symbols, ?_⟩
  rw [hprogram.constants_eq, hlonger.constants_eq]
  exact hconstants

/-- The longer source uses a constant of the program, carries its stranded flag on, gives a command
to the label that ends it, and goes back to that command only. -/
theorem take_commands_of_assemble_append_trailing :
    ∃ program longer,
      (assemble { branchAlignment := 4 } (SourceLine.ofText
        "$n = 3\nJUMP @b\n@a: NOOPC $n\n@b: LDNC $n + 1\nJUMP @b\n@c:\nA".toList)).2 =
          .ok program ∧
      (assemble { branchAlignment := 4 } (SourceLine.ofText
        "$n = 3\nJUMP @b\n@a: NOOPC $n\n@b: LDNC $n + 1\nJUMP @b\n@c:\nA".toList ++
          SourceLine.ofText "NOOPC $n\n$m = $n * 2\nWAIT $m\n@d: CALL @c".toList)).2 =
          .ok longer ∧
      program.addresses = [0, 1, 4, 5] ∧ longer.addresses = [0, 1, 4, 5, 8, 9, 10] ∧
      longer.commands.take 4 = program.commands := by
  generalize hfront : SourceLine.ofText
    "$n = 3\nJUMP @b\n@a: NOOPC $n\n@b: LDNC $n + 1\nJUMP @b\n@c:\nA".toList = front
  generalize hback : SourceLine.ofText
    "NOOPC $n\n$m = $n * 2\nWAIT $m\n@d: CALL @c".toList = back
  -- where the branches beyond the first four commands go
  let targets (longer : Program) : List (Option ℕ) := (longer.commands.drop 4).map fun command ↦
    (command.target?.bind longer.symbols.get?).map Symbol.commandIndex
  have hprogram : (assemble { branchAlignment := 4 } front).2.toOption.map Program.addresses =
      some [0, 1, 4, 5] := by
    rw [← hfront]
    decide +kernel
  have hlonger : (assemble { branchAlignment := 4 } (front ++ back)).2.toOption.map
      (fun longer ↦ (longer.addresses, targets longer)) =
        some ([0, 1, 4, 5, 8, 9, 10], [none, none, some 4]) := by
    rw [← hfront, ← hback]
    decide +kernel
  rcases hassemble : (assemble { branchAlignment := 4 } front).2 with failure | program
  · simp [hassemble, Except.toOption] at hprogram
  rcases hassemble' : (assemble { branchAlignment := 4 } (front ++ back)).2 with failure | longer
  · simp [hassemble', Except.toOption] at hlonger
  simp only [hassemble, Except.toOption, Option.map_some, Option.some.injEq] at hprogram
  simp only [hassemble', Except.toOption, Option.map_some, Option.some.injEq,
    Prod.mk.injEq] at hlonger
  have hlength : program.commands.length = 4 := by
    simpa [Program.addresses] using congrArg List.length hprogram
  refine ⟨program, longer, rfl, rfl, hprogram, hlonger.1, ?_⟩
  rw [← hlength]
  refine (take_commands_of_assemble_append hassemble hassemble' ?_).1
  rw [hlength]
  intro branch hbranch name symbol hnames hsymbol
  have htarget : some symbol.commandIndex ∈ targets longer := by
    refine List.mem_map.2 ⟨branch, hbranch, ?_⟩
    rw [hnames.2, Option.bind_some, hsymbol, Option.map_some]
  rw [hlonger.2] at htarget
  simp only [List.mem_cons, reduceCtorEq, Option.some.injEq, false_or, List.not_mem_nil,
    or_false] at htarget
  omega

end Program

end Sequencer
