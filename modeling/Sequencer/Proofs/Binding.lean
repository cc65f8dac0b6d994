import Mathlib
import Sequencer.Proofs.Reading
import Sequencer.Proofs.Respacing

/-!
# What labels are bound to

Commands are numbered as they are read, and a label stands for the command that is read next, on its
own line or on a later one. Where a name is used again, the first label keeps it, and the further
one is reported.
-/

namespace Sequencer

namespace SourceLine

/-- The name at the front of a line, from its at sign to the colon that follows it. -/
def label? (line : SourceLine) : Option Text :=
  match Source.code line.text with
  | '@' :: rest =>
    if rest.takeWhile Text.isWord ≠ [] ∧ (rest.dropWhile Text.isWord).head? = some ':' then
      some ('@' :: rest.takeWhile Text.isWord)
    else none
  | _ => none

/-- The first line with a label of this name. -/
def firstLabelled? (source : List SourceLine) (name : Text) : Option SourceLine :=
  source.find? fun line ↦ line.label? = some name

/-- The symbol of a label on a line, where it comes first among these commands. -/
def binding (commands : List Command) (line : SourceLine) : Symbol where
  commandIndex := commands.countP fun command ↦ command.line < line.number
  line := line.number

/-- The error about a label whose name the line `first` has already. -/
def repetition (name : Text) (first line : SourceLine) : Diagnostic where
  severity := .error
  stage := .parser
  line := some line.number
  message := (ReadingFault.duplicateSymbol name first.number).message

/-- The error that a line's label leads to, if it is not the first of its name. -/
def repetition? (source : List SourceLine) (line : SourceLine) : Option Diagnostic :=
  line.label?.bind fun name ↦ (firstLabelled? source name).bind fun first ↦
    if first.number = line.number then none else some (repetition name first line)

end SourceLine

/-- The errors that tell of repeated labels. -/
def Diagnostic.isRepetition (d : Diagnostic) : Bool :=
  d.severity = .error && d.stage = .parser &&
    "duplicate symbol ".toList.isPrefixOf d.message.toList

def ReadingFault.isRepetition : ReadingFault → Bool
  | duplicateSymbol _ _ => true
  | _ => false

/-! ## Labels -/

namespace Statement

open Text

theorem isName_iff {t : Text} : isName t = true ↔ t ≠ [] ∧ ∀ c ∈ t, isWord c = true := by
  simp [isName]

/-- A name up to the first colon is a run of word characters that a colon follows. -/
theorem splitFirst_isName (rest : Text) :
    ((splitFirst ':' rest).bind fun p ↦ if isName p.1 then some p.1 else none) =
      if rest.takeWhile isWord ≠ [] ∧ (rest.dropWhile isWord).head? = some ':' then
        some (rest.takeWhile isWord)
      else none := by
  split
  · next h =>
    obtain ⟨hne, hcolon⟩ := h
    obtain ⟨back, hback⟩ := List.head?_eq_some_iff.1 hcolon
    have hword : ∀ c ∈ rest.takeWhile isWord, isWord c = true := fun c ↦ List.mem_takeWhile_imp
    have hsplit := splitFirst_append (not_mem_of_isWord hword (by decide : isWord ':' = false)) back
    rw [← hback, List.takeWhile_append_dropWhile] at hsplit
    rw [hsplit, Option.bind_some, if_pos (isName_iff.2 ⟨hne, hword⟩)]
  · next h =>
    rw [Option.bind_eq_none_iff]
    rintro ⟨before, after⟩ hsplit
    rw [if_neg]
    intro hname
    obtain ⟨hne, hword⟩ := isName_iff.1 hname
    have hcolon : isWord ':' = false := by decide
    apply h
    rw [eq_of_splitFirst hsplit, List.takeWhile_append_of_pos hword,
      List.dropWhile_append_of_pos hword]
    simp [hne, hcolon]

theorem label_ofText (line : SourceLine) : (ofText line.text).label = line.label? := by
  have hlabel : (ofText line.text).label =
      (splitLabel (Source.code line.text)).map Prod.fst := by
    unfold ofText
    dsimp only
    split <;> simp_all
  rw [hlabel, SourceLine.label?]
  cases Source.code line.text with
  | nil => rfl
  | cons c rest =>
    rw [splitLabel_cons]
    split
    · next hc =>
      subst hc
      have hname := congrArg (Option.map ('@' :: ·)) (splitFirst_isName rest)
      rw [apply_ite (Option.map ('@' :: ·))] at hname
      refine Eq.trans ?_ hname
      rw [Option.map_bind, Option.map_bind]
      congr 1
      funext p
      simp only [Function.comp_apply]
      split <;> rfl
    · next hc =>
      split
      · next heq => exact absurd (List.cons.inj heq).1 hc
      · rfl

end Statement

namespace SourceLine

theorem firstLabelled?_append (seen : List SourceLine) (line : SourceLine) (name : Text) :
    firstLabelled? (seen ++ [line]) name =
      (firstLabelled? seen name).or (if line.label? = some name then some line else none) := by
  simp only [firstLabelled?, List.find?_append, List.find?_singleton, decide_eq_true_eq]

theorem exists_firstLabelled? {seen : List SourceLine} {line : SourceLine} (hmem : line ∈ seen)
    {name : Text} (hlabel : line.label? = some name) :
    ∃ first, firstLabelled? seen name = some first := by
  rw [← Option.isSome_iff_exists, firstLabelled?, List.find?_isSome]
  exact ⟨line, hmem, by simpa using hlabel⟩

/-- Lines that follow do not change what is said about those before them. -/
theorem repetition?_append {seen : List SourceLine} {line : SourceLine} (hmem : line ∈ seen)
    (next : SourceLine) : repetition? (seen ++ [next]) line = repetition? seen line := by
  unfold repetition?
  cases hlabel : line.label? with
  | none => rfl
  | some name =>
    obtain ⟨first, hfirst⟩ := exists_firstLabelled? hmem hlabel
    rw [Option.bind_some, Option.bind_some, firstLabelled?_append, hfirst, Option.some_or]

theorem filterMap_repetition?_append (seen : List SourceLine) (line : SourceLine) :
    (seen ++ [line]).filterMap (repetition? (seen ++ [line])) =
      seen.filterMap (repetition? seen) ++ (repetition? (seen ++ [line]) line).toList := by
  have hearlier : seen.filterMap (repetition? (seen ++ [line])) =
      seen.filterMap (repetition? seen) :=
    List.filterMap_congr fun _ hmem ↦ repetition?_append hmem line
  rw [List.filterMap_append, hearlier]
  cases h : repetition? (seen ++ [line]) line <;> simp [h]

/-- A command is no earlier than a line before it. -/
theorem binding_append {line : SourceLine} {command : Option Command}
    (h : ∀ c ∈ command, line.number ≤ c.line) (commands : List Command) :
    binding (commands ++ command.toList) line = binding commands line := by
  unfold binding
  rw [List.countP_append]
  cases command with
  | none => rfl
  | some command => simp [h command rfl]

theorem pairwise_ofText (text : Text) :
    (ofText text).Pairwise fun a b ↦ a.number < b.number := by
  rw [List.pairwise_iff_getElem]
  intro i j hi hj hlt
  simpa [ofText] using hlt

end SourceLine

/-! ## What lines record -/

/-- The message of a fault tells whether it is about a repeated label. -/
theorem ReadingFault.isRepetition_eq (fault : ReadingFault) (line : Option ℕ) :
    Diagnostic.isRepetition
        { severity := .error, stage := .parser, line, message := fault.message } =
      fault.isRepetition := by
  simp only [Diagnostic.isRepetition, decide_true, Bool.true_and]
  cases fault with
  | duplicateSymbol name first =>
    change List.isPrefixOf _
      s!"duplicate symbol {String.ofList name}, first defined at line {first}".toList = true
    simp only [String.toList_append]
    rfl
  | badDefinition name fault =>
    let shown := String.ofList (Text.upper name)
    change List.isPrefixOf _
      s!"failure evaluating constant expression for {shown}: {fault.message}".toList = false
    simp only [String.toList_append]
    rfl
  | duplicateConstant name kept =>
    let shown := String.ofList (Text.upper name)
    change List.isPrefixOf _
      s!"duplicate constant definition of {shown} (keeping {kept})".toList = false
    simp only [String.toList_append]
    rfl
  | unknownOpcode token =>
    change List.isPrefixOf _ s!"unrecognized opcode {String.ofList token}".toList = false
    simp only [String.toList_append]
    rfl
  | tooManyOperands operands =>
    change List.isPrefixOf _
      s!"max {maxOperands} operands, but found {operands.length} ({spaced operands})".toList = false
    simp only [String.toList_append]
    rfl
  | strandedFlags flags =>
    let shown := String.ofList flags.letters
    change List.isPrefixOf _
      s!"flags {shown} at end of program apply to no instruction".toList = false
    simp only [String.toList_append]
    rfl

namespace Reader

variable {reader next after : Reader}

/-- The body of a line leads to no error about its label. -/
theorem Reads.exists_added {number : ℕ} {body : Body} {command : Option Command}
    (h : reader.Reads number body next command) :
    ∃ added, next.report.diagnostics = reader.report.diagnostics ++ added ∧
      ∀ d ∈ added, d.isRepetition = false := by
  have herror (fault : ReadingFault) (hfault : fault.isRepetition = false) (line : Option ℕ) :
      ∀ d ∈ [{ severity := .error, stage := .parser, line, message := fault.message : Diagnostic }],
        d.isRepetition = false :=
    List.forall_mem_singleton.2 ((fault.isRepetition_eq line).trans hfault)
  cases h with
  | define => exact ⟨[], (List.append_nil _).symm, by simp⟩
  | redefine => exact ⟨[_], rfl, herror _ rfl _⟩
  | flags => exact ⟨[], (List.append_nil _).symm, by simp⟩
  | unknown => exact ⟨[_], rfl, herror _ rfl _⟩
  | excess => exact ⟨[_], rfl, herror _ rfl _⟩
  | command => exact ⟨[], (List.append_nil _).symm, by simp⟩

/-- The commands that were written are numbered from zero on, and the reader counts them. -/
structure Numbers (written : List Command) (reader : Reader) : Prop where
  count_eq : reader.count = written.length
  index_eq : ∀ (place : ℕ) (command : Command), written[place]? = some command →
    command.index = place

/-- What is known between two lines, when `seen` was read and gave the commands `written`: they are
numbered, no two come from one line, and labels stand for them. -/
structure Binds (start : Report) (seen : List SourceLine) (written : List Command)
    (reader : Reader) : Prop extends reader.Numbers written where
  sublist : (written.map Command.line).Sublist (seen.map SourceLine.number)
  get?_eq : ∀ name, reader.symbols.get? name =
    (SourceLine.firstLabelled? seen name).map (SourceLine.binding written)
  repetitions : ∃ added, reader.report.diagnostics = start.diagnostics ++ added ∧
    added.filter Diagnostic.isRepetition = seen.filterMap (SourceLine.repetition? seen)

variable {start : Report} {seen : List SourceLine} {written : List Command} {line : SourceLine}

theorem numbers_start (report : Report) : ({ report } : Reader).Numbers [] := ⟨rfl, by simp⟩

/-- Each line keeps commands numbered. -/
theorem Numbers.of_line {command : Option Command} (h : reader.Numbers written)
    (hline : reader.line line = (next, .ok command)) :
    next.Numbers (written ++ command.toList) := by
  have hlabel := readsLabel_label reader line.number (Statement.ofText line.text).label
  obtain ⟨-, hcount, hcommand⟩ := (reads_of_line hline).command_cases
  rw [hlabel.count_eq, h.count_eq] at hcount hcommand
  refine ⟨by rw [hcount, List.length_append], fun place found hfound ↦ ?_⟩
  by_cases hlt : place < written.length
  · rw [List.getElem?_append_left hlt] at hfound
    exact h.index_eq place found hfound
  · rw [List.getElem?_append_right (Nat.le_of_not_lt hlt)] at hfound
    obtain rfl : command = some found := by simpa using List.mem_of_getElem? hfound
    have hplace : place - written.length < 1 := (List.getElem?_eq_some_iff.1 hfound).1
    rw [(hcommand found rfl).1]
    omega

/-- Commands are numbered in their order. -/
theorem numbers_of_lines {report : Report} {source : List SourceLine} {commands : List Command}
    (h : ({ report } : Reader).lines source = (after, .ok commands)) : after.Numbers commands := by
  refine lines_invariant (fun _ written now ↦ now.Numbers written) (numbers_start report) ?_ h
  intro seen line written before next command _ hnumbers hline
  exact hnumbers.of_line hline

theorem binds_start (report : Report) : ({ report } : Reader).Binds report [] [] where
  toNumbers := numbers_start report
  sublist := .slnil
  get?_eq := fun _ ↦ rfl
  repetitions := ⟨[], (List.append_nil _).symm, rfl⟩

/-- At its line, a label stands for all commands that are to come. -/
theorem Binds.binding_eq (h : reader.Binds start seen written)
    (hlater : ∀ earlier ∈ seen, earlier.number < line.number) :
    line.binding written = { commandIndex := reader.count, line := line.number } := by
  have hall : ∀ command ∈ written, decide (command.line < line.number) = true := by
    intro command hmem
    have hline := h.sublist.subset (List.mem_map_of_mem hmem)
    obtain ⟨earlier, hearlier, heq⟩ := List.mem_map.1 hline
    rw [decide_eq_true_iff, ← heq]
    exact hlater earlier hearlier
  rw [SourceLine.binding, List.countP_eq_length.2 hall, h.count_eq]

/-- The label of a line is bound, or reported if its name is known. -/
theorem Binds.label (h : reader.Binds start seen written)
    (hlater : ∀ earlier ∈ seen, earlier.number < line.number)
    (hlabel : reader.ReadsLabel line.number line.label? next) :
    (∀ name, next.symbols.get? name = (SourceLine.firstLabelled? (seen ++ [line]) name).map
        (SourceLine.binding written)) ∧
      ∃ added, next.report.diagnostics = start.diagnostics ++ added ∧
        added.filter Diagnostic.isRepetition =
          (seen ++ [line]).filterMap (SourceLine.repetition? (seen ++ [line])) := by
  obtain ⟨added, hadded, hrepetitions⟩ := h.repetitions
  rw [SourceLine.filterMap_repetition?_append, ← hrepetitions]
  simp only [SourceLine.repetition?, SourceLine.firstLabelled?_append]
  generalize line.label? = label at hlabel
  cases hlabel with
  | none =>
    refine ⟨fun name ↦ ?_, added, hadded, by simp⟩
    rw [h.get?_eq, if_neg (by simp), Option.or_none]
  | @fresh name symbols unknown get?_eq =>
    rw [h.get?_eq, Option.map_eq_none_iff] at unknown
    refine ⟨fun other ↦ ?_, added, hadded, by simp [unknown]⟩
    change symbols.get? other = _
    rw [get?_eq, h.get?_eq, ← h.binding_eq hlater]
    by_cases hother : other = name
    · simp [hother, unknown]
    · simp [hother, Ne.symm hother]
  | @repeated name symbol known =>
    have hknown := known
    rw [h.get?_eq, Option.map_eq_some_iff] at hknown
    obtain ⟨first, hfirst, rfl⟩ := hknown
    have hne : first.number ≠ line.number := (hlater first (List.mem_of_find?_eq_some hfirst)).ne
    refine ⟨fun other ↦ ?_, added ++ [SourceLine.repetition name first line], ?_, ?_⟩
    · change reader.symbols.get? other = _
      rw [h.get?_eq]
      by_cases hother : other = name
      · simp [hother, hfirst]
      · simp [Ne.symm hother]
    · change reader.report.diagnostics ++ [_] = _
      rw [hadded, List.append_assoc]
      rfl
    · have hrepetition : (SourceLine.repetition name first line).isRepetition = true :=
        (ReadingFault.duplicateSymbol name first.number).isRepetition_eq _
      simp [hfirst, hne, hrepetition]

/-- Each line keeps commands numbered and labels bound. -/
theorem Binds.of_line {command : Option Command} (h : reader.Binds start seen written)
    (hlater : ∀ earlier ∈ seen, earlier.number < line.number)
    (hline : reader.line line = (next, .ok command)) :
    next.Binds start (seen ++ [line]) (written ++ command.toList) := by
  have hreads := reads_of_line hline
  have hlabels := readsLabel_label reader line.number (Statement.ofText line.text).label
  rw [Statement.label_ofText] at hreads hlabels
  obtain ⟨hget, added, hadded, hrepetitions⟩ := h.label hlater hlabels
  obtain ⟨hsymbols, -, hcommand⟩ := hreads.command_cases
  obtain ⟨more, hmore, hnone⟩ := hreads.exists_added
  refine ⟨h.toNumbers.of_line hline, ?_, ?_, ?_⟩
  · rw [List.map_append, List.map_append]
    apply h.sublist.append
    cases command with
    | none => simp
    | some command => simp [(hcommand command rfl).2]
  · intro name
    rw [hsymbols, hget]
    apply Option.map_congr
    intro first hfirst
    refine (SourceLine.binding_append (fun c hc ↦ ?_) written).symm
    rw [(hcommand c hc).2]
    rcases List.mem_append.1 (List.mem_of_find?_eq_some hfirst) with hmem | hmem
    · exact (hlater first hmem).le
    · rw [List.mem_singleton.1 hmem]
  · refine ⟨added ++ more, ?_, ?_⟩
    · rw [hmore, hadded, List.append_assoc]
    · rw [List.filter_append, hrepetitions, List.filter_eq_nil_iff.2 (by simpa using hnone),
        List.append_nil]

/-- Lines with ascending numbers bind their labels. -/
theorem binds_of_lines {report : Report} {source : List SourceLine} {commands : List Command}
    (hascends : source.Pairwise fun a b ↦ a.number < b.number)
    (h : ({ report } : Reader).lines source = (after, .ok commands)) :
    after.Binds report source commands := by
  refine lines_invariant (Binds report) (binds_start report) ?_ h
  intro seen line written before next command hseen hbinds hline
  apply hbinds.of_line _ hline
  intro earlier hearlier
  exact (List.pairwise_append.1 (hascends.sublist hseen.sublist)).2.2 earlier hearlier line
    (List.mem_singleton_self line)

/-- The check at the end of a source leads to no error. -/
theorem finish_diagnostics (reader : Reader) (lastLine : Option ℕ) :
    ∃ added, (reader.finish lastLine).1.report.diagnostics = reader.report.diagnostics ++ added ∧
      ∀ d ∈ added, d.severity = .warning := by
  refine ⟨_, reader.diagnostics_finish lastLine, ?_⟩
  split <;> simp

/-- How a text is read: the commands are numbered from zero in the order of their lines, at most one
to a line. The symbols are the names of the labels, each as its first label binds it, to the command
that is read next. Every further label of a name leads to one error, which names the line of the
first. -/
theorem read_ofText_binds {text : Text} {report : Report} {commands : List Command}
    (h : ({ report } : Reader).read (SourceLine.ofText text) = (after, .ok commands)) :
    (∀ (place : ℕ) (command : Command), commands[place]? = some command →
        command.index = place) ∧
      (commands.map Command.line).Pairwise (· < ·) ∧
      (∀ name, after.symbols.get? name =
        (SourceLine.firstLabelled? (SourceLine.ofText text) name).map
          (SourceLine.binding commands)) ∧
      ∃ added, after.report.diagnostics = report.diagnostics ++ added ∧
        added.filter Diagnostic.isRepetition = (SourceLine.ofText text).filterMap
          (SourceLine.repetition? (SourceLine.ofText text)) := by
  have hascends := SourceLine.pairwise_ofText text
  generalize SourceLine.ofText text = source at h hascends ⊢
  obtain ⟨last, hlines, hfinish⟩ := exists_finish_of_read h
  have hbinds := binds_of_lines hascends hlines
  obtain ⟨added, hadded, hrepetitions⟩ := hbinds.repetitions
  obtain ⟨more, hmore, hwarnings⟩ :=
    last.finish_diagnostics (source.getLast?.map SourceLine.number)
  have hsymbols := (last.finish_tables (source.getLast?.map SourceLine.number)).2
  rw [hfinish] at hmore hsymbols
  refine ⟨hbinds.index_eq, ?_, ?_, added ++ more, ?_, ?_⟩
  · exact List.Pairwise.sublist hbinds.sublist (List.pairwise_map.2 hascends)
  · intro name
    rw [hsymbols]
    exact hbinds.get?_eq name
  · rw [hmore, hadded, List.append_assoc]
  · have hnone : more.filter Diagnostic.isRepetition = [] := by
      rw [List.filter_eq_nil_iff]
      intro d hmem
      simp [Diagnostic.isRepetition, hwarnings d hmem]
    rw [List.filter_append, hrepetitions, hnone, List.append_nil]

/-- Labels alone, in front of an instruction, of a definition and of a line that gives no command,
a label that is repeated and one that ends the source. -/
theorem read_ofText_binds_mixed :
    ∃ (after : Reader) (commands : List Command), ({ report := .start none } : Reader).read
        (SourceLine.ofText
          "@a:\n@b: NOOP 1\n@c: $n = 3\n@d: FOO\n@a: WAIT $n\n@e:".toList) =
            (after, .ok commands) ∧
      commands.map (fun command ↦ (command.index, command.line)) = [(0, 2), (1, 5)] ∧
      ["@a", "@b", "@c", "@d", "@e", "@f"].map (fun name ↦ after.symbols.get? name.toList) =
        [some { commandIndex := 0, line := 1 }, some { commandIndex := 0, line := 2 },
          some { commandIndex := 1, line := 3 }, some { commandIndex := 1, line := 4 },
          some { commandIndex := 2, line := 6 }, none] ∧
      after.report.diagnostics.filter Diagnostic.isRepetition =
        [{ severity := .error
           stage := .parser
           line := some 5
           message := "duplicate symbol @a, first defined at line 1" }] := by
  generalize htext :
    "@a:\n@b: NOOP 1\n@c: $n = 3\n@d: FOO\n@a: WAIT $n\n@e:".toList = text
  have hcommands :
      (({ report := .start none } : Reader).read (SourceLine.ofText text)).2.toOption.map
        (List.map fun command ↦ (command.index, command.line)) = some [(0, 2), (1, 5)] := by
    rw [← htext]
    decide +kernel
  rcases hread : ({ report := .start none } : Reader).read (SourceLine.ofText text) with
    ⟨after, failure | commands⟩
  · simp [hread, Except.toOption] at hcommands
  simp only [hread, Except.toOption, Option.map_some, Option.some.injEq] at hcommands
  obtain ⟨-, -, hsymbols, added, hadded, hrepetitions⟩ := read_ofText_binds hread
  refine ⟨after, commands, rfl, hcommands, ?_, ?_⟩
  · have hlines : commands.map Command.line = [2, 5] := by
      simpa [Function.comp_def] using congrArg (List.map Prod.snd) hcommands
    have hbinding : SourceLine.binding commands = fun line ↦
        { commandIndex := [2, 5].countP fun number ↦ number < line.number
          line := line.number } := by
      funext line
      rw [SourceLine.binding, ← hlines, List.countP_map]
      rfl
    simp only [hsymbols, hbinding, ← htext]
    decide +kernel
  · rw [hadded]
    change added.filter _ = _
    rw [hrepetitions, ← htext]
    decide +kernel

end Reader

end Sequencer
