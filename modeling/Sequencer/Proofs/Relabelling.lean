import Mathlib
import Sequencer.Machine.Decoded
import Sequencer.Source.Reading
import Sequencer.Proofs.Literals
import Sequencer.Proofs.Source
import Sequencer.Proofs.Table
import Sequencer.Proofs.WordCodec

/-!
# Listings with labels

A listing becomes a source again when every line gets a label that tells its address, and every
branch is written with the label of its target. Reading such a source gives, line by line, the
command that the word was decoded to, and a symbol for every label.
-/

namespace Sequencer

/-- The label of the word at an address. -/
def wordLabel (address : ℕ) : Text := "@L".toList ++ Numeral.decimal address

namespace Decoded

/-- The word as an instruction, a branch target being written as the label of its address. -/
def relabelled (d : Decoded) : Text :=
  match d.target? with
  | some target => d.mnemonic.toList ++ ' ' :: wordLabel target.toNat
  | none => d.render

/-- The line of the word at an address. -/
def labelledLine (address : ℕ) (d : Decoded) : Text :=
  wordLabel address ++ ": ".toList ++ d.relabelled

end Decoded

/-- The lines of an image, each with the label of its address. -/
def labelledLines (words : List Word) : List Text :=
  (words.filterMap decode).mapIdx Decoded.labelledLine

/-! ## Words of a line -/

namespace Decoded

/-- The written value of a word. -/
def valueText (d : Decoded) : Text := Numeral.markedHex 1 d.value.toNat

/-- The opcode that a word is written with. -/
def opcodeText (d : Decoded) : Text :=
  match d.op with
  | .ldReg | .ldCc | .ldNc => "LD".toList
  | op => op.format.mnemonic.toList

/-- The operands that a word is written with. -/
def operandTexts (d : Decoded) : List Text :=
  match d.op with
  | .ldReg => ["REG".toList ++ Numeral.decimal d.register.toNat, d.valueText]
  | .ldCc => ["CC".toList, d.valueText]
  | .ldNc => ["NC".toList, d.valueText]
  | .ret | .txTemp | .ldTemp | .txBr | .movTemp => []
  | _ => match d.target? with
    | some target => [wordLabel target.toNat]
    | none => [d.valueText]

/-- Formats of branches have no flags. -/
theorem flags_of_isBranch (op : MachineOp) : op.isBranch = true → op.format.flags = [] := by
  cases op <;> decide

theorem letters_of_isBranch {d : Decoded} (h : d.op.isBranch = true) : d.flagSet.letters = [] := by
  rw [flagSet_eq, flags_of_isBranch d.op h]
  rfl

theorem relabelled_eq (d : Decoded) :
    d.relabelled = Statement.flagged d.flagSet d.opcodeText d.operandTexts := by
  by_cases hbranch : d.op.isBranch
  · have htarget : d.target? = some (d.value <<< 1) := if_pos hbranch
    simp only [relabelled, htarget, Statement.flagged, letters_of_isBranch hbranch,
      opcodeText, operandTexts, mnemonic]
    cases hop : d.op <;> simp [hop, MachineOp.isBranch] at hbranch <;> rfl
  · have htarget : d.target? = none := if_neg hbranch
    simp only [relabelled, htarget, render, Statement.flagged, opcodeText, operandTexts, mnemonic]
    cases hop : d.op <;> simp [hop, MachineOp.isBranch] at hbranch <;> rfl

theorem isToken_of_isWord {t : Text} (hne : t ≠ []) (h : ∀ c ∈ t, Text.isWord c = true) :
    Source.IsToken t := ⟨hne, fun c hmem ↦ .inl (h c hmem)⟩

theorem isToken_wordLabel (address : ℕ) : Source.IsToken (wordLabel address) := by
  refine ⟨List.cons_ne_nil _ _, fun c hmem ↦ ?_⟩
  rcases List.mem_append.1 hmem with hmark | hdigit
  · rcases List.mem_cons.1 hmark with rfl | hletter
    · exact .inr rfl
    · rw [List.mem_singleton.1 hletter]
      exact .inl (by decide)
  · exact .inl (Numeral.isWord_of_mem_decimal hdigit)

theorem isToken_opcodeText (d : Decoded) :
    Source.IsToken d.opcodeText ∧ d.opcodeText.length ≠ 1 := by
  have hall : d.opcodeText.all Text.isWord = true ∧ 1 < d.opcodeText.length := by
    unfold opcodeText
    cases d.op <;> decide
  refine ⟨isToken_of_isWord ?_ (List.all_eq_true.1 hall.1), by omega⟩
  exact List.ne_nil_of_length_pos (by omega)

theorem isToken_operandTexts (d : Decoded) : ∀ token ∈ d.operandTexts, Source.IsToken token := by
  have hvalue : Source.IsToken d.valueText :=
    isToken_of_isWord (List.cons_ne_nil _ _) fun _ ↦ Expression.isWord_of_mem_markedHex
  have hregister : Source.IsToken ("REG".toList ++ Numeral.decimal d.register.toNat) := by
    refine isToken_of_isWord (List.cons_ne_nil _ _) fun c hmem ↦ ?_
    rcases List.mem_append.1 hmem with hname | hdigit
    · have hall : "REG".toList.all Text.isWord = true := by decide
      exact List.all_eq_true.1 hall c hname
    · exact Numeral.isWord_of_mem_decimal hdigit
  have hcounter : Source.IsToken "CC".toList ∧ Source.IsToken "NC".toList := by
    have hall : ("CC".toList ++ "NC".toList).all Text.isWord = true := by decide
    rw [List.all_append, Bool.and_eq_true, List.all_eq_true, List.all_eq_true] at hall
    exact ⟨isToken_of_isWord (List.cons_ne_nil _ _) hall.1,
      isToken_of_isWord (List.cons_ne_nil _ _) hall.2⟩
  intro token hmem
  unfold operandTexts at hmem
  split at hmem
  · simp only [List.mem_cons, List.not_mem_nil, or_false] at hmem
    rcases hmem with rfl | rfl
    · exact hregister
    · exact hvalue
  · simp only [List.mem_cons, List.not_mem_nil, or_false] at hmem
    rcases hmem with rfl | rfl
    · exact hcounter.1
    · exact hvalue
  · simp only [List.mem_cons, List.not_mem_nil, or_false] at hmem
    rcases hmem with rfl | rfl
    · exact hcounter.2
    · exact hvalue
  · cases hmem
  · cases hmem
  · cases hmem
  · cases hmem
  · cases hmem
  · split at hmem
    · rw [List.mem_singleton.1 hmem]
      exact isToken_wordLabel _
    · rw [List.mem_singleton.1 hmem]
      exact hvalue

/-- A labelled line is taken apart into its label and the parts of its word. -/
theorem ofText_labelledLine (address : ℕ) (d : Decoded) :
    Statement.ofText (d.labelledLine address) =
      ⟨some (wordLabel address), .instruction d.flagSet (d.opcodeText :: d.operandTexts)⟩ := by
  have hname : ∀ c ∈ 'L' :: Numeral.decimal address, Text.isWord c = true := by
    intro c hmem
    rcases List.mem_cons.1 hmem with rfl | hdigit
    · decide
    · exact Numeral.isWord_of_mem_decimal hdigit
  obtain ⟨hhead, hlong⟩ := d.isToken_opcodeText
  rw [labelledLine, relabelled_eq, List.append_assoc]
  exact Statement.ofText_labelled d.flagSet (List.cons_ne_nil _ _) hname hhead hlong
    d.isToken_operandTexts

/-! ## Reading the lines -/

/-- The command that a word is read back to. -/
def command (index line : ℕ) (d : Decoded) : Command where
  flags := d.flagSet
  opcode := d.op.opcode
  rawOperands := d.operandTexts
  index := index
  line := line

theorem ofToken?_opcodeText (d : Decoded) : Opcode.ofToken? d.opcodeText = some d.op.opcode := by
  unfold opcodeText
  cases d.op <;> rfl

theorem length_operandTexts_le (d : Decoded) : d.operandTexts.length ≤ maxOperands := by
  unfold operandTexts
  split
  case h_9 => split <;> simp [maxOperands]
  all_goals simp [maxOperands]

end Decoded

theorem wordLabel_injective : Function.Injective wordLabel := by
  intro a b h
  have hdigits : Nat.toDigits 10 a = Nat.toDigits 10 b := List.append_cancel_left h
  have hread (n : ℕ) (hn : n < a + b + 1) :
      Numeral.readDigits 10 (a + b + 1) 0 (Nat.toDigits 10 n) = .ok n :=
    Numeral.readDigits_toDigits (by norm_num) (by norm_num) n hn
  have hsame := hread a (by omega)
  rw [hdigits, hread b (by omega)] at hsame
  exact (Except.ok.inj hsame).symm

/-- The symbols of a source whose lines so far are labelled with their addresses. -/
structure Labels (count : ℕ) (symbols : Symbols) : Prop where
  get?_eq : ∀ address < count, ∃ line,
    symbols.get? (wordLabel address) = some { commandIndex := address, line }
  fresh : ∀ address, count ≤ address → symbols.get? (wordLabel address) = none
  index_lt : ∀ name symbol, symbols.get? name = some symbol → symbol.commandIndex < count

theorem labels_empty : Labels 0 Table.empty where
  get?_eq _ h := absurd h (Nat.not_lt_zero _)
  fresh _ _ := rfl
  index_lt _ _ h := by cases h

/-- The label of the next address can be defined. -/
theorem Labels.exists_define {count : ℕ} {symbols : Symbols} (h : Labels count symbols)
    (line : ℕ) :
    ∃ next, symbols.define (wordLabel count) { commandIndex := count, line } = .ok next ∧
      Labels (count + 1) next := by
  obtain ⟨next, hdefine, hget⟩ :=
    Table.exists_define (h.fresh count le_rfl) { commandIndex := count, line }
  refine ⟨next, hdefine, fun address hlt ↦ ?_, fun address hle ↦ ?_, fun name symbol hsymbol ↦ ?_⟩
  · rw [hget]
    by_cases hlast : address = count
    · exact ⟨line, by rw [if_pos (congrArg wordLabel hlast), hlast]⟩
    · rw [if_neg fun heq ↦ hlast (wordLabel_injective heq)]
      exact h.get?_eq address (by omega)
  · have hne : wordLabel address ≠ wordLabel count := fun heq ↦ by
      have := wordLabel_injective heq
      omega
    rw [hget, if_neg hne]
    exact h.fresh address (by omega)
  · rw [hget] at hsymbol
    split at hsymbol
    · obtain rfl := Option.some.inj hsymbol
      exact Nat.lt_succ_self count
    · exact (h.index_lt name symbol hsymbol).trans (Nat.lt_succ_self count)

namespace Reader

/-- Reading the next labelled line defines its label and gives the command of its word. -/
theorem line_labelledLine {reader : Reader} {source : SourceLine} {d : Decoded}
    (htext : source.text = d.labelledLine reader.count) (hpending : reader.pending = .empty)
    (hlabels : Labels reader.count reader.symbols) :
    ∃ symbols, Labels (reader.count + 1) symbols ∧
      reader.line source = ({ reader with symbols, count := reader.count + 1 },
        .ok (some (d.command reader.count source.number))) := by
  obtain ⟨symbols, hdefine, hnext⟩ := hlabels.exists_define source.number
  refine ⟨symbols, hnext, ?_⟩
  have hflags : FlagSet.empty.union d.flagSet = d.flagSet :=
    FlagSet.ext_contains fun flag ↦ by simp
  have hfew : ¬ maxOperands < d.operandTexts.length := Nat.not_lt.2 d.length_operandTexts_le
  simp only [line, htext, Decoded.ofText_labelledLine, label, hdefine, instruction, hpending,
    Decoded.ofToken?_opcodeText, if_neg hfew, hflags]
  rfl

/-- Reading labelled lines gives the commands of their words, in order. -/
theorem lines_labelledLines {words : List Decoded} {source : List SourceLine} {reader : Reader}
    (htext : source.map SourceLine.text =
      words.mapIdx fun index d ↦ d.labelledLine (reader.count + index))
    (hpending : reader.pending = .empty) (hlabels : Labels reader.count reader.symbols) :
    ∃ symbols, Labels (reader.count + words.length) symbols ∧
      reader.lines source = ({ reader with symbols, count := reader.count + words.length },
        .ok (List.zipWith (fun entry line ↦ entry.1.command entry.2 line)
          (words.zipIdx reader.count) (source.map SourceLine.number))) := by
  induction words generalizing source reader with
  | nil =>
    obtain rfl : source = [] := by simpa using htext
    exact ⟨reader.symbols, hlabels, rfl⟩
  | cons d rest ih =>
    obtain _ | ⟨first, more⟩ := source
    · simp at htext
    rw [List.map_cons, List.mapIdx_cons] at htext
    obtain ⟨hfirst, hmore⟩ := List.cons.inj htext
    obtain ⟨symbols, hnext, hline⟩ := line_labelledLine hfirst hpending hlabels
    have hrest := @ih more { reader with symbols, count := reader.count + 1 }
      (by rw [hmore]; simp [Nat.add_assoc, Nat.add_comm 1]) hpending hnext
    obtain ⟨last, hlast, hlines⟩ := hrest
    have hcount : reader.count + (d :: rest).length = reader.count + 1 + rest.length := by
      rw [List.length_cons]
      omega
    refine ⟨last, hcount ▸ hlast, ?_⟩
    rw [lines, hline]
    simp only [hlines, hcount]
    rfl

end Reader

end Sequencer
