import Mathlib
import Sequencer.Proofs.Flag
import Sequencer.Proofs.Reading

/-!
# Which flags an instruction has

Flags are gathered from line to line until a line with a mnemonic takes them, whether that line
gives a command or is refused. So a command has the flags of its own line and of those before it,
back to the last line that had a mnemonic. Flags behind the last mnemonic of a source are reported.
-/

namespace Sequencer

/-- The flag that a token stands for. -/
def Flag.ofToken? : Text → Option Flag
  | [letter] => Flag.ofLetter? letter
  | _ => none

namespace SourceLine

/-- The tokens of the instruction on a line, behind its label. A definition has none. -/
def tokens (line : SourceLine) : List Text :=
  let code := Source.code line.text
  let rest := ((Statement.splitLabel code).map Prod.snd).getD code
  if (Statement.splitDefinition rest).isSome then [] else Source.tokens (Source.normalize rest)

/-- The flags that lead the instruction on a line. -/
def flags (line : SourceLine) : List Flag :=
  (line.tokens.takeWhile fun token ↦ (Flag.ofToken? token).isSome).filterMap Flag.ofToken?

/-- What follows the flags: a mnemonic with its operands, or nothing. -/
def phrase (line : SourceLine) : List Text :=
  line.tokens.dropWhile fun token ↦ (Flag.ofToken? token).isSome

def hasMnemonic (line : SourceLine) : Bool := !line.phrase.isEmpty

/-- The line gives a command: its mnemonic is known, and its operands are not too many. -/
def givesCommand (line : SourceLine) : Bool :=
  match line.phrase with
  | [] => false
  | mnemonic :: operands =>
    (Opcode.ofToken? mnemonic).isSome && decide (operands.length ≤ maxOperands)

/-- The lines that give commands, with their places. -/
def givers (source : List SourceLine) : List (SourceLine × ℕ) :=
  source.zipIdx.filter fun entry ↦ entry.1.givesCommand

/-- The flags of the line at `place` are still waiting at `owner`: no mnemonic took them on the
way. -/
def Reaches (source : List SourceLine) (place owner : ℕ) : Prop :=
  place ≤ owner ∧ ∀ line ∈ (source.take owner).drop place, line.hasMnemonic = false

/-- The flag stands on the line at `owner` or waits for it. -/
def Gathers (source : List SourceLine) (owner : ℕ) (flag : Flag) : Prop :=
  ∃ place, Reaches source place owner ∧ ∃ line ∈ source[place]?, flag ∈ line.flags

instance (source : List SourceLine) (place owner : ℕ) : Decidable (Reaches source place owner) :=
  inferInstanceAs (Decidable (_ ∧ _))

instance (source : List SourceLine) (owner : ℕ) (flag : Flag) :
    Decidable (Gathers source owner flag) :=
  decidable_of_iff
    (∃ place ≤ owner, Reaches source place owner ∧ ∃ line ∈ source[place]?, flag ∈ line.flags)
    (exists_congr fun _ ↦ and_iff_right_of_imp fun h ↦ h.1.1)

/-- All flags on the line at `owner` or waiting for it. -/
def gathered (source : List SourceLine) (owner : ℕ) : FlagSet :=
  .ofPredicate fun flag ↦ Gathers source owner flag

end SourceLine

/-! ## The body of a line -/

namespace Statement

theorem ofToken?_eq (token : Text) :
    FlagSet.ofToken? token = (Flag.ofToken? token).map FlagSet.single := by
  unfold FlagSet.ofToken?
  split
  · rfl
  · next hlong =>
    rw [Flag.ofToken?]
    · rfl
    · exact hlong

/-- The flags that are split off are those of the leading flag tokens. -/
theorem splitFlags_spec (tokens : List Text) :
    (splitFlags tokens).2 = tokens.dropWhile (fun token ↦ (Flag.ofToken? token).isSome) ∧
      ∀ flag, (splitFlags tokens).1.contains flag = true ↔
        flag ∈ (tokens.takeWhile fun token ↦ (Flag.ofToken? token).isSome).filterMap
          Flag.ofToken? := by
  induction tokens with
  | nil => exact ⟨rfl, fun flag ↦ by simp [splitFlags]⟩
  | cons token rest ih =>
    rw [splitFlags, ofToken?_eq]
    cases htoken : Flag.ofToken? token with
    | none => simp [htoken]
    | some held =>
      refine ⟨by simpa [htoken] using ih.1, fun flag ↦ ?_⟩
      simp [htoken, ih.2]

/-- A line is a definition, and then it has no tokens, or an instruction with its flags and its
phrase. -/
theorem body_cases (line : SourceLine) :
    ((∃ name expression, (ofText line.text).body = .definition name expression) ∧
        line.tokens = []) ∨
      ∃ flags, (ofText line.text).body = .instruction flags line.phrase ∧
        ∀ flag, flags.contains flag = true ↔ flag ∈ line.flags := by
  have hbody : (ofText line.text).body = bodyOf
      (((splitLabel (Source.code line.text)).map Prod.snd).getD (Source.code line.text)) := by
    unfold ofText
    dsimp only
    split
    · next hlabel => rw [hlabel]; rfl
    · next hlabel => rw [hlabel]; rfl
  rw [hbody]
  unfold SourceLine.phrase SourceLine.flags SourceLine.tokens bodyOf
  dsimp only
  split
  · next name expression hdefinition =>
    refine .inl ⟨⟨name, expression, rfl⟩, ?_⟩
    rw [hdefinition]
    rfl
  · next hdefinition =>
    obtain ⟨hrest, hflags⟩ := splitFlags_spec (Source.tokens (Source.normalize
      (((splitLabel (Source.code line.text)).map Prod.snd).getD (Source.code line.text))))
    rw [hdefinition, if_neg (by simp)]
    exact .inr ⟨_, by rw [hrest], hflags⟩

end Statement

/-! ## Gathered flags along a source -/

namespace SourceLine

variable {seen : List SourceLine} {line : SourceLine} {place owner : ℕ} {flag : Flag}

theorem givers_append (seen : List SourceLine) (line : SourceLine) :
    givers (seen ++ [line]) =
      givers seen ++ if line.givesCommand then [(line, seen.length)] else [] := by
  unfold givers
  rw [List.zipIdx_append, List.filter_append]
  cases hgives : line.givesCommand <;> simp [hgives]

/-- Lines that follow have no part in what waits at a line. -/
theorem reaches_append (howner : owner ≤ seen.length) :
    Reaches (seen ++ [line]) place owner ↔ Reaches seen place owner := by
  unfold Reaches
  rw [List.take_append_of_le_length howner]

theorem gathers_append (howner : owner < seen.length) :
    Gathers (seen ++ [line]) owner flag ↔ Gathers seen owner flag := by
  refine exists_congr fun place ↦ ?_
  rw [reaches_append howner.le]
  refine and_congr_right fun hreaches ↦ ?_
  rw [List.getElem?_append_left (hreaches.1.trans_lt howner)]

/-- A line has its own flags and those that wait for it. -/
theorem gathers_last :
    Gathers (seen ++ [line]) seen.length flag ↔
      Gathers seen seen.length flag ∨ flag ∈ line.flags := by
  constructor
  · rintro ⟨place, hreaches, found, hfound, hflag⟩
    rw [reaches_append le_rfl] at hreaches
    rcases hreaches.1.lt_or_eq with hlt | rfl
    · rw [List.getElem?_append_left hlt] at hfound
      exact .inl ⟨place, hreaches, found, hfound, hflag⟩
    · obtain rfl : line = found := by simpa using hfound
      exact .inr hflag
  · rintro (⟨place, hreaches, found, hfound, hflag⟩ | hflag)
    · have hlt : place < seen.length := (List.getElem?_eq_some_iff.1 hfound).1
      rw [← List.getElem?_append_left hlt] at hfound
      exact ⟨place, (reaches_append le_rfl).2 hreaches, found, hfound, hflag⟩
    · exact ⟨seen.length, ⟨le_rfl, by simp⟩, line, by simp, hflag⟩

/-- Behind a line, either all that was gathered at it still waits, or nothing does. -/
theorem gathers_behind :
    Gathers (seen ++ [line]) (seen ++ [line]).length flag ↔
      line.hasMnemonic = false ∧ Gathers (seen ++ [line]) seen.length flag := by
  have hreaches {place : ℕ} (hplace : place ≤ seen.length) :
      Reaches (seen ++ [line]) place (seen ++ [line]).length ↔
        line.hasMnemonic = false ∧ Reaches (seen ++ [line]) place seen.length := by
    unfold Reaches
    rw [List.take_length, List.take_left, List.drop_append_of_le_length hplace]
    simp only [List.length_append, List.length_singleton, List.mem_append, List.mem_singleton,
      or_imp, forall_and, forall_eq, hplace, true_and, Nat.le_succ_of_le hplace]
    exact and_comm
  constructor
  · rintro ⟨place, hwaits, found, hfound, hflag⟩
    have hlt : place < (seen ++ [line]).length := (List.getElem?_eq_some_iff.1 hfound).1
    have hplace : place ≤ seen.length := by simpa [Nat.lt_succ_iff] using hlt
    obtain ⟨hnone, hlast⟩ := (hreaches hplace).1 hwaits
    exact ⟨hnone, place, hlast, found, hfound, hflag⟩
  · rintro ⟨hnone, place, hlast, hflag⟩
    exact ⟨place, (hreaches hlast.1).2 ⟨hnone, hlast⟩, hflag⟩

theorem eq_gathered_iff {source : List SourceLine} {flags : FlagSet} :
    flags = gathered source owner ↔
      ∀ flag, flags.contains flag = true ↔ Gathers source owner flag := by
  constructor
  · rintro rfl flag
    simp [gathered]
  · intro h
    apply FlagSet.ext_contains
    intro flag
    rw [Bool.eq_iff_iff, h]
    simp [gathered]

theorem gathered_append (howner : owner < seen.length) :
    gathered (seen ++ [line]) owner = gathered seen owner := by
  rw [eq_gathered_iff]
  intro flag
  calc
    (gathered (seen ++ [line]) owner).contains flag = true ↔ Gathers (seen ++ [line]) owner flag :=
      eq_gathered_iff.1 rfl flag
    _ ↔ Gathers seen owner flag := gathers_append howner

/-- Two lines with mnemonics have no waiting flags in common. -/
theorem not_reaches_of_ne {source : List SourceLine} {other : ℕ} (hne : owner ≠ other)
    {line next : SourceLine} (hline : source[owner]? = some line)
    (hnext : source[other]? = some next) (hmnemonic : line.hasMnemonic = true)
    (hmnemonic' : next.hasMnemonic = true)
    (hreaches : Reaches source place owner) : ¬ Reaches source place other := by
  -- the earlier of the two takes what waits for it
  have htakes {first second : ℕ} {taker : SourceLine} (hlt : first < second)
      (htaker : source[first]? = some taker) (hfirst : Reaches source place first)
      (hsecond : Reaches source place second) : taker.hasMnemonic = false := by
    apply hsecond.2
    rw [List.mem_iff_getElem?]
    refine ⟨first - place, ?_⟩
    have hle := hfirst.1
    rw [List.getElem?_drop, Nat.add_sub_cancel' hle, List.getElem?_take_of_lt hlt, htaker]
  intro hreaches'
  rcases Nat.lt_or_gt_of_ne hne with hlt | hlt
  · rw [htakes hlt hline hreaches hreaches'] at hmnemonic
    cases hmnemonic
  · rw [htakes hlt hnext hreaches' hreaches] at hmnemonic'
    cases hmnemonic'

theorem hasMnemonic_of_givesCommand (h : line.givesCommand = true) : line.hasMnemonic = true := by
  unfold givesCommand at h
  unfold hasMnemonic
  split at h
  · cases h
  · next hphrase => rw [hphrase]; rfl

end SourceLine

/-! ## Reading -/

namespace Reader

open SourceLine

variable {reader next after : Reader} {seen : List SourceLine} {written : List Command}
  {line : SourceLine} {command : Option Command}

/-- What is known between two lines, when `seen` was read and gave the commands `written`. -/
structure GathersFlags (seen : List SourceLine) (written : List Command) (reader : Reader) :
    Prop where
  pending : reader.pending = gathered seen seen.length
  commands : written.map (fun command ↦ (command.line, command.flags)) =
    (givers seen).map fun giver ↦ (giver.1.number, gathered seen giver.2)

theorem gathersFlags_start (constants : Constants) (symbols : Symbols) (report : Report) :
    ({ constants, symbols, report } : Reader).GathersFlags [] [] where
  pending := eq_gathered_iff.2 fun flag ↦ by simp [Gathers]
  commands := rfl

/-- What a line does with the flags that wait: without a mnemonic its own are added to them; with
one they are all taken, and the command has them if there is one. -/
theorem flags_of_line (h : reader.line line = (next, .ok command)) :
    (∀ flag, next.pending.contains flag = true ↔
        line.hasMnemonic = false ∧ (reader.pending.contains flag = true ∨ flag ∈ line.flags)) ∧
      command.isSome = line.givesCommand ∧
      ∀ c ∈ command, c.line = line.number ∧ ∀ flag, c.flags.contains flag = true ↔
        reader.pending.contains flag = true ∨ flag ∈ line.flags := by
  have hreads := reads_of_line h
  have hpending : (reader.label line.number (Statement.ofText line.text).label).pending =
      reader.pending := (readsLabel_label reader _ _).pending_eq
  generalize reader.label line.number (Statement.ofText line.text).label = labelled
    at hreads hpending
  obtain ⟨⟨name, expression, hbody⟩, htokens⟩ | ⟨flags, hbody, hflags⟩ := Statement.body_cases line
  · have hphrase : line.phrase = [] := by rw [phrase, htokens]; rfl
    have hnone : line.flags = [] := by rw [SourceLine.flags, htokens]; rfl
    rw [hbody] at hreads
    cases hreads <;> simp [hasMnemonic, givesCommand, hphrase, hnone, Reader.error, hpending]
  · rw [hbody] at hreads
    unfold hasMnemonic givesCommand
    generalize line.phrase = tokens at hreads ⊢
    cases hreads with
    | flags => simp [← hflags, hpending]
    | unknown opcode_eq => simp [Reader.error, opcode_eq]
    | excess opcode_eq lt_length => simp [Reader.error, opcode_eq, lt_length]
    | command opcode_eq length_le => simp [← hflags, hpending, opcode_eq, length_le]

/-- Each line keeps flags gathered. -/
theorem GathersFlags.of_line (h : reader.GathersFlags seen written)
    (hline : reader.line line = (next, .ok command)) :
    next.GathersFlags (seen ++ [line]) (written ++ command.toList) := by
  obtain ⟨hpending, hgives, hcommand⟩ := flags_of_line hline
  have hgathered (flag : Flag) : reader.pending.contains flag = true ∨ flag ∈ line.flags ↔
      Gathers (seen ++ [line]) seen.length flag := by
    rw [gathers_last, eq_gathered_iff.1 h.pending]
  refine ⟨eq_gathered_iff.2 fun flag ↦ ?_, ?_⟩
  · rw [hpending, hgathered, gathers_behind]
  · have hearlier :
        (givers seen).map (fun giver ↦ (giver.1.number, gathered (seen ++ [line]) giver.2)) =
          (givers seen).map fun giver ↦ (giver.1.number, gathered seen giver.2) := by
      refine List.map_congr_left fun giver hmem ↦ ?_
      rw [gathered_append (List.snd_lt_of_mem_zipIdx (List.mem_filter.1 hmem).1)]
    rw [givers_append, List.map_append, List.map_append, h.commands, hearlier, ← hgives]
    cases command with
    | none => rfl
    | some command =>
      obtain ⟨hnumber, hflags⟩ := hcommand command rfl
      have hown : command.flags = gathered (seen ++ [line]) seen.length :=
        eq_gathered_iff.2 fun flag ↦ (hflags flag).trans (hgathered flag)
      simp [hnumber, hown]

/-- Flags are gathered along the lines of a source. -/
theorem gathersFlags_of_lines {constants : Constants} {symbols : Symbols} {report : Report}
    {source : List SourceLine} {commands : List Command}
    (h : ({ constants, symbols, report } : Reader).lines source = (after, .ok commands)) :
    after.GathersFlags source commands := by
  refine lines_invariant GathersFlags (gathersFlags_start constants symbols report) ?_ h
  intro seen line written before next command _ hgathers hline
  exact hgathers.of_line hline

/-- Reading attributes flags: a command has just those of its own line and of the lines before it,
back to the last line with a mnemonic. What waits for a line that is refused reaches no command. If
flags are left behind the last mnemonic, there is one warning, which lists them. -/
theorem read_attributes_flags {constants : Constants} {symbols : Symbols} {report : Report}
    {source : List SourceLine} {commands : List Command}
    (h : ({ constants, symbols, report } : Reader).read source = (after, .ok commands)) :
    commands.map (fun command ↦ (command.line, command.flags)) =
        (givers source).map (fun giver ↦ (giver.1.number, gathered source giver.2)) ∧
      (∀ (refused : ℕ) (line : SourceLine), source[refused]? = some line →
        line.hasMnemonic = true → line.givesCommand = false →
          ∀ place, Reaches source place refused →
            ∀ giver ∈ givers source, ¬ Reaches source place giver.2) ∧
      ∃ added, after.report.diagnostics = report.diagnostics ++ added ∧
        added.filter (fun d ↦ d.severity = .warning) =
          let left := gathered source source.length
          let letters := String.ofList left.letters
          if left.isEmpty then [] else
            [{ severity := .warning, stage := .parser, line := source.getLast?.map SourceLine.number
               message := s!"flags {letters} at end of program apply to no instruction" }] := by
  obtain ⟨last, hlines, hfinish⟩ := exists_finish_of_read h
  have hgathers := gathersFlags_of_lines hlines
  refine ⟨hgathers.commands, ?_, ?_⟩
  · intro refused line hline hmnemonic hgives place hreaches giver hgiver
    obtain ⟨hgiver, hgives'⟩ := List.mem_filter.1 hgiver
    have hgiver : source[giver.2]? = some giver.1 := List.mem_zipIdx_iff_getElem?.1 hgiver
    have hne : refused ≠ giver.2 := by
      rintro rfl
      obtain rfl := Option.some.inj (hline.symm.trans hgiver)
      rw [hgives] at hgives'
      cases hgives'
    exact not_reaches_of_ne hne hline hgiver hmnemonic (hasMnemonic_of_givesCommand hgives')
      hreaches
  · obtain ⟨added, hadded, herrors⟩ := addsErrors_of_lines hlines
    have hnone : added.filter (fun d ↦ d.severity = .warning) = [] := by
      rw [List.filter_eq_nil_iff]
      intro d hd
      simp [herrors d hd]
    have hdiagnostics := last.diagnostics_finish (source.getLast?.map SourceLine.number)
    rw [hfinish, hadded, Report.addErrors, List.append_assoc] at hdiagnostics
    refine ⟨_, hdiagnostics, ?_⟩
    rw [List.filter_append, hnone, List.nil_append, hgathers.pending]
    dsimp only
    split <;> rfl

/-- Flags that wait across a label, a blank line and a definition, flags for two lines that are
refused, and flags with no mnemonic behind them. -/
theorem read_attributes_flags_mixed :
    ∃ (source : List SourceLine) (after : Reader) (commands : List Command),
      source = SourceLine.ofText
        "A\n@x: B\n\n$n = 1\nS MOVD 1\nK FOO\nA\nS MOVD 1 2 3\nNOOP\nK\n@y: A A\n# end".toList ∧
      ({ report := .start none } : Reader).read source = (after, .ok commands) ∧
      (givers source).map Prod.snd = [4, 8] ∧
      commands.map Command.flags =
        [{ acquire := true, reserved := true, synchronise := true }, .empty] ∧
      (Reaches source 6 7 ∧ ∀ giver ∈ givers source, ¬ Reaches source 6 giver.2) ∧
      after.report.diagnostics.filter (fun d ↦ d.severity = .warning) =
        [⟨.warning, .parser, some 12, "flags AK at end of program apply to no instruction"⟩] := by
  generalize hsource : SourceLine.ofText
    "A\n@x: B\n\n$n = 1\nS MOVD 1\nK FOO\nA\nS MOVD 1 2 3\nNOOP\nK\n@y: A A\n# end".toList = source
  have hgivers : (givers source).map Prod.snd = [4, 8] := by
    rw [← hsource]
    decide +kernel
  have hflags : ((givers source).map fun giver ↦ gathered source giver.2) =
      [{ acquire := true, reserved := true, synchronise := true }, .empty] := by
    rw [← hsource]
    decide +kernel
  have hleft : gathered source source.length = { acquire := true, control := true } := by
    rw [← hsource]
    decide +kernel
  have hlast : source.getLast?.map SourceLine.number = some 12 := by
    rw [← hsource]
    decide +kernel
  have hreaches : Reaches source 6 7 := by
    rw [← hsource]
    decide +kernel
  have hrefused : (source[7]?.map fun line ↦ (line.hasMnemonic, line.givesCommand)) =
      some (true, false) := by
    rw [← hsource]
    decide +kernel
  have hok : (({ report := .start none } : Reader).read source).2.isOk = true := by
    rw [← hsource]
    decide +kernel
  rcases hread : ({ report := .start none } : Reader).read source with ⟨after, failure | commands⟩
  · rw [hread] at hok
    cases hok
  obtain ⟨hcommands, hapart, added, hadded, hwarnings⟩ := read_attributes_flags hread
  obtain ⟨line, hline, hkind⟩ := Option.map_eq_some_iff.1 hrefused
  obtain ⟨hmnemonic, hgives⟩ := Prod.mk.inj hkind
  refine ⟨source, after, commands, rfl, hread, hgivers, ?_,
    ⟨hreaches, hapart 7 line hline hmnemonic hgives 6 hreaches⟩, ?_⟩
  · rw [← hflags]
    simpa [Function.comp_def] using congrArg (List.map Prod.snd) hcommands
  · rw [hadded, hlast, hleft] at *
    exact hwarnings

end Reader

end Sequencer
