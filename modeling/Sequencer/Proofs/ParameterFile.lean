import Mathlib
import Sequencer.Image.Writer
import Sequencer.Proofs.Binding
import Sequencer.Proofs.ProgramLayout

/-!
# Labels down the parameter file

Symbols are held by name and listed by line. In a source that gives a program no name is used for
two labels, so the listing is the labels as they are written. A label further down is bound to no
earlier command, and commands stand in the order of their addresses: down the parameter file no
address is less than the one before it.
-/

namespace Sequencer

/-! ## Labels of a source -/

namespace SourceLine

/-- The labels of a source, in the order of its lines. -/
def labels (source : List SourceLine) : List Text := source.filterMap label?

theorem exists_word_of_label? {line : SourceLine} {name : Text} (h : line.label? = some name) :
    ∃ word, name = '@' :: word ∧ ∀ c ∈ word, Text.isWord c = true := by
  unfold label? at h
  split at h
  · next rest _ =>
    split at h
    · exact ⟨rest.takeWhile Text.isWord, (Option.some.inj h).symm, fun c ↦ List.mem_takeWhile_imp⟩
    · cases h
  · cases h

theorem exists_word_of_mem_labels {source : List SourceLine} {name : Text}
    (h : name ∈ labels source) : ∃ word, name = '@' :: word ∧ ∀ c ∈ word, Text.isWord c = true := by
  obtain ⟨line, -, hlabel⟩ := List.mem_filterMap.1 h
  exact exists_word_of_label? hlabel

/-- Where no repetition is reported, every label is the first of its name. -/
theorem firstLabelled?_of_mem {source : List SourceLine}
    (hascends : source.Pairwise fun a b ↦ a.number < b.number)
    (hnone : source.filterMap (repetition? source) = []) {line : SourceLine} (hmem : line ∈ source)
    {name : Text} (hlabel : line.label? = some name) : firstLabelled? source name = some line := by
  obtain ⟨first, hfirst⟩ := exists_firstLabelled? hmem hlabel
  have hline := List.filterMap_eq_nil_iff.1 hnone line hmem
  rw [repetition?, hlabel, Option.bind_some, hfirst, Option.bind_some, ite_eq_left_iff] at hline
  have hnumber : first.number = line.number := by
    by_contra hne
    cases hline hne
  have hnodup : (source.map number).Nodup := (List.pairwise_map.2 hascends).imp Nat.ne_of_lt
  rw [hfirst, List.inj_on_of_nodup_map hnodup (List.mem_of_find?_eq_some hfirst) hmem hnumber]

/-- A later line comes after no fewer commands. -/
theorem commandIndex_binding_mono (commands : List Command) {line next : SourceLine}
    (h : line.number ≤ next.number) :
    (line.binding commands).commandIndex ≤ (next.binding commands).commandIndex := by
  apply List.countP_mono_left
  intro command _ hbefore
  simp only [decide_eq_true_eq] at hbefore ⊢
  omega

/-- Only the lines of the commands matter to a binding. -/
theorem binding_congr {commands others : List Command}
    (h : commands.map Command.line = others.map Command.line) (line : SourceLine) :
    line.binding commands = line.binding others := by
  have hcount := congrArg (List.countP fun number ↦ decide (number < line.number)) h
  rw [List.countP_map, List.countP_map] at hcount
  simp only [binding, Symbol.mk.injEq, and_true]
  exact hcount

end SourceLine

namespace Reader

/-- A text that is read without an error has no repeated label, and its symbols are its labels. -/
theorem binds_of_read {text : Text} {limit : Option ℕ} {after : Reader} {commands : List Command}
    (h : (start limit).read (SourceLine.ofText text) = (after, .ok commands))
    (herrors : after.report.tally.errors = 0) :
    (SourceLine.ofText text).filterMap (SourceLine.repetition? (SourceLine.ofText text)) = [] ∧
      ∀ name, after.symbols.get? name =
        (SourceLine.firstLabelled? (SourceLine.ofText text) name).map
          (SourceLine.binding commands) := by
  have hascends := SourceLine.pairwise_ofText text
  generalize SourceLine.ofText text = source at h hascends ⊢
  obtain ⟨last, hlines, hfinish⟩ := exists_finish_of_read h
  have hbinds := binds_of_lines hascends hlines
  have hlast := last.errors_finish (source.getLast?.map SourceLine.number)
  have hsymbols := (last.finish_tables (source.getLast?.map SourceLine.number)).2
  rw [hfinish] at hlast hsymbols
  refine ⟨?_, fun name ↦ by rw [hsymbols, hbinds.get?_eq]⟩
  -- lines only ever add errors, so without any there is no diagnostic at all
  obtain ⟨added, hadded, hrepetitions⟩ := hbinds.repetitions
  obtain ⟨errors, hreport, -⟩ := addsErrors_of_lines hlines
  have hempty : errors = [] := by
    rw [hlast, hreport, Report.errors_addErrors] at herrors
    exact List.length_eq_zero_iff.1 (Nat.add_eq_zero_iff.1 herrors).2
  rw [hreport, hempty, Report.addErrors_nil] at hadded
  rw [← hrepetitions, List.append_cancel_left (hadded.symm.trans (List.append_nil _).symm),
    List.filter_nil]

end Reader

/-! ## Symbols of a program -/

/-- Symbols that stand on ascending lines are listed in that order. -/
theorem Symbols.byLine_eq {symbols : Symbols} {listed : List (Text × Symbol)}
    (hperm : listed.Perm symbols.entries)
    (hascends : listed.Pairwise fun a b ↦ a.2.line < b.2.line) : symbols.byLine = listed := by
  have hsorted : symbols.byLine.Pairwise fun a b ↦ a.2.precedes b.2 = true := by
    refine List.pairwise_mergeSort (fun a b c ↦ ?_) (fun a b ↦ ?_) _
    · simp only [Symbol.precedes, Bool.or_eq_true, Bool.and_eq_true, decide_eq_true_eq]
      omega
    · simp only [Symbol.precedes, Bool.or_eq_true, Bool.and_eq_true, decide_eq_true_eq]
      omega
  have hlisted : symbols.byLine.Perm listed := (List.mergeSort_perm _ _).trans hperm.symm
  have hlines : (listed.map fun entry ↦ entry.2.line).Nodup :=
    (List.pairwise_map.2 hascends).imp Nat.ne_of_lt
  refine hlisted.eq_of_pairwise (fun a b ha hb hab hba ↦ ?_) hsorted (hascends.imp fun h ↦ ?_)
  · -- each line has one symbol, so symbols that precede each other are the same
    apply List.inj_on_of_nodup_map hlines (hlisted.mem_iff.1 ha) hb
    simp only [Symbol.precedes, Bool.or_eq_true, Bool.and_eq_true, decide_eq_true_eq] at hab hba
    omega
  · simp [Symbol.precedes, h]

/-- Validation and linking leave a symbol on its line and with its command. -/
theorem Draft.place_of_link {constants : Constants} {alignment : UInt16} {draft result : Draft}
    (h : (draft.validated constants alignment).link = (result, .ok ())) (name : Text) :
    (result.symbols.get? name).map (fun symbol ↦ (symbol.line, symbol.commandIndex)) =
      (draft.symbols.get? name).map fun symbol ↦ (symbol.line, symbol.commandIndex) := by
  rw [get?_of_link h, get?_validated, Option.map_map, Option.map_map]
  congr 1
  funext symbol
  rw [Function.comp_apply, Function.comp_apply, Symbol.placed_eq, alignSymbol]
  split <;> rfl

namespace Program

variable {settings : Settings} {source : List SourceLine} {program : Program}

/-- The symbols of a program are the labels of a source, each with the line of its label and bound
to the command that is read next. -/
structure IsLabelledBy (program : Program) (source : List SourceLine) : Prop where
  exists_symbol : ∀ line ∈ source, ∀ name, line.label? = some name →
    ∃ symbol, program.symbols.get? name = some symbol ∧ symbol.line = line.number ∧
      symbol.commandIndex = (line.binding program.commands).commandIndex
  mem_labels : ∀ name symbol, program.symbols.get? name = some symbol →
    name ∈ SourceLine.labels source

theorem isLabelledBy_of_assemble {text : Text}
    (h : (assemble settings (SourceLine.ofText text)).2 = .ok program) :
    program.IsLabelledBy (SourceLine.ofText text) := by
  rw [(assemble_eq_assembleInto h).2] at h
  obtain ⟨reader, written, validated, hread, hvalidate, hlink, -⟩ :=
    exists_passes_of_assembleInto h
  obtain ⟨rfl, herrors, -⟩ := Draft.of_validate_eq_ok hvalidate
  obtain ⟨hunrepeated, hsymbols⟩ := Reader.binds_of_read hread herrors
  have hlines : program.commands.map Command.line = written.map Command.line :=
    (Draft.map_of_link (fun _ ↦ rfl) hlink).trans (Draft.map_validated (fun _ _ _ ↦ rfl) _ _ _)
  have hplace (name : Text) := Draft.place_of_link hlink name
  change ∀ name, _ = (reader.symbols.get? name).map _ at hplace
  simp only [hsymbols, Option.map_map] at hplace
  constructor
  · intro line hmem name hlabel
    have hfirst := SourceLine.firstLabelled?_of_mem (SourceLine.pairwise_ofText text) hunrepeated
      hmem hlabel
    have hname := hplace name
    rw [hfirst, Option.map_some, Option.map_eq_some_iff] at hname
    obtain ⟨symbol, hsymbol, hbound⟩ := hname
    rw [Function.comp_apply, Prod.mk.injEq, ← SourceLine.binding_congr hlines] at hbound
    exact ⟨symbol, hsymbol, hbound.1, hbound.2⟩
  · intro name symbol hsymbol
    have hname := hplace name
    rw [hsymbol, Option.map_some, eq_comm, Option.map_eq_some_iff] at hname
    obtain ⟨line, hfirst, -⟩ := hname
    exact List.mem_filterMap.2 ⟨line, List.mem_of_find?_eq_some hfirst,
      by simpa using List.find?_some hfirst⟩

/-- Both names have symbols, and the second stands on a later line and for no earlier command. -/
def Precedes (program : Program) (name next : Text) : Prop :=
  ∃ symbol later, program.symbols.get? name = some symbol ∧
    program.symbols.get? next = some later ∧ symbol.line < later.line ∧
    symbol.commandIndex ≤ later.commandIndex

namespace IsLabelledBy

variable (h : program.IsLabelledBy source)
  (hascends : source.Pairwise fun a b ↦ a.number < b.number)

include h hascends

theorem pairwise_precedes : (SourceLine.labels source).Pairwise program.Precedes := by
  refine List.pairwise_filterMap.2 (hascends.imp_of_mem fun hline hnext hless ↦ ?_)
  intro name hname later hlater
  obtain ⟨symbol, hsymbol, hnumber, hindex⟩ := h.exists_symbol _ hline name hname
  obtain ⟨symbol', hsymbol', hnumber', hindex'⟩ := h.exists_symbol _ hnext later hlater
  refine ⟨symbol, symbol', hsymbol, hsymbol', by omega, ?_⟩
  rw [hindex, hindex']
  exact SourceLine.commandIndex_binding_mono _ hless.le

/-- The symbols are the labels, each once. -/
theorem perm_keys : (SourceLine.labels source).Perm program.symbols.keys := by
  have hnodup : (SourceLine.labels source).Nodup := by
    refine (h.pairwise_precedes hascends).imp ?_
    rintro name _ ⟨symbol, later, hsymbol, hlater, hless, -⟩ rfl
    rw [hsymbol] at hlater
    cases hlater
    exact lt_irrefl _ hless
  rw [List.perm_ext_iff_of_nodup hnodup program.symbols.nodup_keys]
  intro name
  rw [← Table.get?_isSome_iff, Option.isSome_iff_exists]
  constructor
  · intro hmem
    obtain ⟨line, hline, hlabel⟩ := List.mem_filterMap.1 hmem
    obtain ⟨symbol, hsymbol, -⟩ := h.exists_symbol line hline name hlabel
    exact ⟨symbol, hsymbol⟩
  · rintro ⟨symbol, hsymbol⟩
    exact h.mem_labels name symbol hsymbol

/-- Symbols are listed in the order of their labels. -/
theorem byLine_eq :
    program.symbols.byLine = program.symbols.select (SourceLine.labels source) := by
  refine Symbols.byLine_eq (Table.perm_select (h.perm_keys hascends)) ?_
  refine List.pairwise_filterMap.2 ((h.pairwise_precedes hascends).imp ?_)
  rintro name next ⟨symbol, later, hsymbol, hlater, hless, -⟩ _ hentry _ hnext
  rw [hsymbol] at hentry
  rw [hlater] at hnext
  cases hentry
  cases hnext
  exact hless

end IsLabelledBy

end Program

/-! ## The lines of the file -/

/-- A label and the address of the command that it stands for. -/
structure EntryPoint where
  label : Text
  address : UInt16
deriving DecidableEq, Repr

namespace EntryPoint

/-- The parameter for an entry point: the label goes without its at sign, and the address is
decimal. -/
def line (entry : EntryPoint) : Text :=
  "parameter addr_".toList ++ entry.label.tail ++ "_c = ".toList ++
    Numeral.decimal entry.address.toNat ++ [';']

/-- A mark that is no word character stands in a line only if every line has it. -/
theorem not_mem_line {entry : EntryPoint} (hlabel : ∀ c ∈ entry.label.tail, Text.isWord c = true)
    {mark : Char} (hmark : Text.isWord mark = false) (hstart : mark ∉ "parameter addr_".toList)
    (hmiddle : mark ∉ "_c = ".toList) (hend : mark ∉ [';']) : mark ∉ entry.line := by
  have hname : mark ∉ entry.label.tail := Text.not_mem_of_isWord hlabel hmark
  have haddress : mark ∉ Numeral.decimal entry.address.toNat :=
    Text.not_mem_of_isWord (fun _ ↦ Numeral.isWord_of_mem_decimal) hmark
  unfold line
  exact List.not_mem_append (List.not_mem_append (List.not_mem_append
    (List.not_mem_append hstart hname) hmiddle) haddress) hend

end EntryPoint

namespace Program

variable {settings : Settings} {program : Program}

/-- Where a label leads, if any command follows it. -/
def entryPoint? (program : Program) (label : Text) : Option EntryPoint :=
  (program.symbols.get? label).bind fun symbol ↦
    program.commands[symbol.commandIndex]?.map fun command ↦ { label, address := command.address }

/-- The labels of a source that lead to a command, in the order of its lines. -/
def entryPoints (program : Program) (source : List SourceLine) : List EntryPoint :=
  (SourceLine.labels source).filterMap program.entryPoint?

theorem entryPoint?_eq {label : Text} {symbol : Symbol}
    (hsymbol : program.symbols.get? label = some symbol) :
    program.entryPoint? label = program.commands[symbol.commandIndex]?.map fun command ↦
      { label, address := command.address } := by
  rw [entryPoint?, hsymbol, Option.bind_some]

theorem label_of_entryPoint? {label : Text} {entry : EntryPoint}
    (h : program.entryPoint? label = some entry) : entry.label = label := by
  obtain ⟨symbol, -, hentry⟩ := Option.bind_eq_some_iff.1 h
  obtain ⟨command, -, rfl⟩ := Option.map_eq_some_iff.1 hentry
  rfl

theorem parameterLine_eq_nil (label : Text) {symbol : Symbol} (h : symbol.address = none) :
    parameterLine (label, symbol) = [] := by
  rw [parameterLine, h]

theorem parameterLine_eq_line (word : Text) {symbol : Symbol} {address : UInt16}
    (h : symbol.address = some address) :
    parameterLine ('@' :: word, symbol) =
      EntryPoint.line { label := '@' :: word, address } ++ ['\n'] := by
  have hend : ";\n".toList = [';'] ++ ['\n'] := rfl
  unfold parameterLine EntryPoint.line
  simp only [h]
  exact (congrArg (_ ++ ·) hend).trans (List.append_assoc _ _ _).symm

/-- The symbols that no command follows leave no trace. -/
theorem flatMap_parameterLine {labels : List Text}
    (hlabels : ∀ label ∈ labels, ∃ word, label = '@' :: word)
    (haddress : ∀ name symbol, program.symbols.get? name = some symbol →
      symbol.address = program.commands[symbol.commandIndex]?.map Command.address) :
    (program.symbols.select labels).flatMap parameterLine =
      (labels.filterMap program.entryPoint?).flatMap fun entry ↦ entry.line ++ ['\n'] := by
  unfold Table.select
  induction labels with
  | nil => rfl
  | cons label rest ih =>
    obtain ⟨⟨word, rfl⟩, hrest⟩ := List.forall_mem_cons.1 hlabels
    cases hsymbol : program.symbols.get? ('@' :: word) with
    | none =>
      have hentry : program.entryPoint? ('@' :: word) = none := by
        rw [entryPoint?, hsymbol, Option.bind_none]
      rw [List.filterMap_cons_none (by rw [hsymbol, Option.map_none]),
        List.filterMap_cons_none hentry, ih hrest]
    | some symbol =>
      have hplaced := haddress _ symbol hsymbol
      have hentry := entryPoint?_eq hsymbol
      rw [List.filterMap_cons_some (by rw [hsymbol, Option.map_some]), List.flatMap_cons, ih hrest]
      cases hcommand : program.commands[symbol.commandIndex]? with
      | none =>
        rw [hcommand, Option.map_none] at hplaced hentry
        rw [parameterLine_eq_nil _ hplaced, List.filterMap_cons_none hentry, List.nil_append]
      | some command =>
        rw [hcommand, Option.map_some] at hplaced hentry
        rw [parameterLine_eq_line _ hplaced, List.filterMap_cons_some hentry,
          List.flatMap_cons]

theorem IsOrdered.address_le (h : program.IsOrdered) {place later : ℕ} (hle : place ≤ later)
    {command next : Command} (hcommand : program.commands[place]? = some command)
    (hnext : program.commands[later]? = some next) : command.address ≤ next.address := by
  rcases hle.eq_or_lt with rfl | hless
  · rw [hcommand] at hnext
    cases hnext
    exact UInt16.le_refl _
  · rw [IsOrdered, List.pairwise_map, List.pairwise_iff_getElem] at h
    obtain ⟨hplace, rfl⟩ := List.getElem?_eq_some_iff.1 hcommand
    obtain ⟨hlater, rfl⟩ := List.getElem?_eq_some_iff.1 hnext
    exact UInt16.le_iff_toNat_le.2 (h place later hplace hlater hless).le

/-- A label further down leads to no lower address. -/
theorem Precedes.address_le {label next : Text} (h : program.Precedes label next)
    (hordered : program.IsOrdered) {entry later : EntryPoint}
    (hentry : program.entryPoint? label = some entry)
    (hlater : program.entryPoint? next = some later) : entry.address ≤ later.address := by
  obtain ⟨symbol, symbol', hsymbol, hsymbol', -, hle⟩ := h
  rw [entryPoint?_eq hsymbol, Option.map_eq_some_iff] at hentry
  rw [entryPoint?_eq hsymbol', Option.map_eq_some_iff] at hlater
  obtain ⟨command, hcommand, rfl⟩ := hentry
  obtain ⟨command', hcommand', rfl⟩ := hlater
  exact hordered.address_le hle hcommand hcommand'

/-- The parameter file of a program. The labels of the source are its symbols, each once. After the
header those that some command follows have one line each, in the order of the source, with the
address of that command, and no other symbol has any. Down the file the addresses never decrease. -/
theorem parameterFile_follows_labels {text : Text}
    (h : (assemble settings (SourceLine.ofText text)).2 = .ok program) :
    (SourceLine.labels (SourceLine.ofText text)).Perm program.symbols.keys ∧
      (program.parameterFile = parameterHeader ++
        (program.entryPoints (SourceLine.ofText text)).flatMap fun entry ↦ entry.line ++ ['\n']) ∧
      (∀ entry ∈ program.entryPoints (SourceLine.ofText text), '\n' ∉ entry.line) ∧
      ((program.entryPoints (SourceLine.ofText text)).map EntryPoint.address).Pairwise
        (· ≤ ·) := by
  obtain ⟨reader, written, hpasses⟩ := exists_comesFrom_of_assemble h
  have hordered := (isLinked_of_assemble h).ordered
  have hlabelled := isLabelledBy_of_assemble h
  have hascends := SourceLine.pairwise_ofText text
  generalize SourceLine.ofText text = source at hpasses hlabelled hascends ⊢
  refine ⟨hlabelled.perm_keys hascends, ?_, fun entry hmem ↦ ?_, ?_⟩
  · have hlabels : ∀ label ∈ SourceLine.labels source, ∃ word, label = '@' :: word := by
      intro label hmem
      obtain ⟨word, hlabel, -⟩ := SourceLine.exists_word_of_mem_labels hmem
      exact ⟨word, hlabel⟩
    rw [parameterFile, hlabelled.byLine_eq hascends,
      flatMap_parameterLine hlabels fun name symbol ↦ hpasses.symbol_address]
    rfl
  · obtain ⟨label, hlabel, hlead⟩ := List.mem_filterMap.1 hmem
    obtain ⟨word, rfl, hchars⟩ := SourceLine.exists_word_of_mem_labels hlabel
    refine EntryPoint.not_mem_line ?_ (by decide) (by decide) (by decide) (by decide)
    rw [label_of_entryPoint? hlead]
    exact hchars
  · rw [List.pairwise_map]
    refine List.pairwise_filterMap.2 ((hlabelled.pairwise_precedes hascends).imp ?_)
    intro label next hprecedes entry hentry later hlater
    exact hprecedes.address_le hordered hentry hlater

/-- Labels against the order of their names, two on one command, one after a gap in the memory, and
one that trails the program. -/
theorem parameterFile_follows_labels_unsorted :
    ∃ program, (assemble {} (SourceLine.ofText
        "@z: NOOP 1\n@b:\n@a: NOOP 2\nJUMP @a\n@end:".toList)).2 = .ok program ∧
      program.symbols.keys = ["@a", "@b", "@end", "@z"].map String.toList ∧
      program.symbols.keys.Perm (["@z", "@b", "@a", "@end"].map String.toList) ∧
      program.parameterFile = parameterHeader ++
        "parameter addr_z_c = 0;\nparameter addr_b_c = 2;\nparameter addr_a_c = 2;\n".toList := by
  generalize htext : "@z: NOOP 1\n@b:\n@a: NOOP 2\nJUMP @a\n@end:".toList = text
  have hresult : (assemble {} (SourceLine.ofText text)).2.toOption.map (fun program ↦
      (program.symbols.keys, program.entryPoints (SourceLine.ofText text))) =
      some (["@a", "@b", "@end", "@z"].map String.toList,
        [⟨"@z".toList, 0⟩, ⟨"@b".toList, 2⟩, ⟨"@a".toList, 2⟩]) := by
    rw [← htext]
    decide +kernel
  have hlabels : SourceLine.labels (SourceLine.ofText text) =
      ["@z", "@b", "@a", "@end"].map String.toList := by
    rw [← htext]
    decide +kernel
  rcases hassemble : (assemble {} (SourceLine.ofText text)).2 with failure | program
  · rw [hassemble] at hresult
    cases hresult
  · rw [hassemble] at hresult
    obtain ⟨hkeys, hentries⟩ := Prod.mk.inj (Option.some.inj hresult)
    obtain ⟨hperm, hfile, -⟩ := parameterFile_follows_labels hassemble
    rw [hlabels] at hperm
    refine ⟨program, rfl, hkeys, hperm.symm, ?_⟩
    rw [hfile, hentries]
    decide +kernel

end Program

end Sequencer
