import Mathlib
import Sequencer.Proofs.Assembly
import Sequencer.Proofs.Relabelling
import Sequencer.Proofs.RoundTrip
import Sequencer.Proofs.Targets

/-!
# A labelled listing assembles to the same image

The commands of a labelled listing resolve to the fields of their words, so they encode to the same
words again. Branches go to even addresses, and a command at an even address needs no gap to be
aligned, so every word stays where it was.
-/

namespace Sequencer

namespace Decoded

/-- What the operands of a word resolve to. -/
def operands (d : Decoded) : List Operand :=
  match d.op with
  | .ldReg => [.register .general (some d.register.toUInt8), .constant d.value]
  | .ldCc => [.register .counter none, .constant d.value]
  | .ldNc => [.register .nestedCounter none, .constant d.value]
  | .ret | .txTemp | .ldTemp | .txBr | .movTemp => []
  | _ => match d.target? with
    | some target => [.address (wordLabel target.toNat)]
    | none => [.constant d.value]

/-- How a word is written and what its operands mean, by the family of its opcode. -/
inductive Written (d : Decoded) : List Text → List Operand → Prop where
  | register (op_eq : d.op = .ldReg) :
      Written d ["REG".toList ++ Numeral.decimal d.register.toNat, d.valueText]
        [.register .general (some d.register.toUInt8), .constant d.value]
  | counter (op_eq : d.op = .ldCc) :
      Written d ["CC".toList, d.valueText] [.register .counter none, .constant d.value]
  | nestedCounter (op_eq : d.op = .ldNc) :
      Written d ["NC".toList, d.valueText] [.register .nestedCounter none, .constant d.value]
  | branch (family_eq : d.op.opcode.family = .branch) (branch : d.op.isBranch = true) :
      Written d [wordLabel (d.value <<< 1).toNat] [.address (wordLabel (d.value <<< 1).toNat)]
  | immediate (family_eq : d.op.opcode.family = .singleImmediate ∨
        d.op.opcode.family = .optionalImmediate) (branch : d.op.isBranch = false) :
      Written d [d.valueText] [.constant d.value]
  | bare (family_eq : d.op.opcode.family = .zeroOperand) (branch : d.op.isBranch = false)
      (width_eq : d.op.format.valueWidth = 0) : Written d [] []

theorem written (d : Decoded) : Written d d.operandTexts d.operands := by
  have htarget : d.target? = if d.op.isBranch then some (d.value <<< 1) else none := rfl
  unfold operandTexts operands
  rw [htarget]
  cases hop : d.op with
  | ldReg => exact .register hop
  | ldCc => exact .counter hop
  | ldNc => exact .nestedCounter hop
  | call | jump | jumpC | jumpI | loop | loopR =>
    exact .branch (by rw [hop]; rfl) (by rw [hop]; rfl)
  | noopC => exact .immediate (.inr (by rw [hop]; rfl)) (by rw [hop]; rfl)
  | ret | txTemp | ldTemp | txBr | movTemp =>
    exact .bare (by rw [hop]; rfl) (by rw [hop]; rfl) (by rw [hop]; rfl)
  | _ => exact .immediate (.inl (by rw [hop]; rfl)) (by rw [hop]; rfl)

/-- The fields of a word fit the format of its operation. -/
structure Fits (d : Decoded) : Prop where
  register_lt : d.register.toNat < Bits.capacity d.op.format.registerWidth
  value_lt : d.value.toNat < Bits.capacity d.op.format.valueWidth

theorem fits_of_decode {word : Word} {d : Decoded} (h : decode word = some d)
    (hzero : d.padding = 0) : d.Fits := by
  obtain ⟨hregister, hvalue, -⟩ := (Format.encode_eq_ok_iff (Format.isWordSized_format d.op)
    _ _ _ _).1 (encode_decode h hzero)
  exact ⟨hregister, hvalue⟩

/-- A word that the source language can write in a program of a given length. -/
structure IsWritable (count : ℕ) (d : Decoded) : Prop where
  padding_eq : d.padding = 0
  value_le : d.op = .unused2 → d.value.toNat ≤ 255
  target_lt : ∀ target, d.target? = some target → target.toNat < count

theorem value_lt_operandBits {d : Decoded} {count : ℕ} (hfits : d.Fits)
    (hwritable : d.IsWritable count) (himmediate : d.op.opcode.family = .singleImmediate ∨
      d.op.opcode.family = .optionalImmediate) :
    d.value.toNat < Bits.capacity d.op.opcode.operandBits := by
  have hvalue := hfits.value_lt
  by_cases hlast : d.op = .unused2
  · have hle := hwritable.value_le hlast
    rw [hlast]
    exact Nat.lt_succ_of_le hle
  · refine hvalue.trans_le (Nat.pow_le_pow_right (by norm_num) ?_)
    revert himmediate hlast
    cases d.op <;> decide

theorem constantSource_valueText (constants : Constants) {d : Decoded} {bits : ℕ}
    (bases : List String) (h : d.value.toNat < Bits.capacity bits) :
    Operand.constantSource constants bits bases d.valueText = .ok d.value := by
  have hbound : d.value.toNat < Expression.numberBound :=
    d.value.toNat_lt.trans (by decide)
  rw [valueText, Operand.constantSource_markedHex constants bases h hbound, UInt16.ofNat_toNat]

theorem registerDestination_general {n : ℕ} (hn : n < 8) :
    Operand.registerDestination .initial ("REG".toList ++ Numeral.decimal n) =
      .ok (.general, some (UInt8.ofNat n)) := by
  interval_cases n <;> rfl

theorem resolveLoad_eq {constants : Constants} {destination : Text} {kind : RegisterClass}
    {index : Option UInt8} {d : Decoded}
    (hdestination : Operand.registerDestination constants destination = .ok (kind, index))
    (hvalue : d.value.toNat < Bits.capacity kind.sourceBits) :
    Operand.resolveLoad constants destination d.valueText =
      { operands := some [.register kind index, .constant d.value] } := by
  simp only [Operand.resolveLoad, hdestination, constantSource_valueText constants [] hvalue]
  rfl

/-- The operands of a word resolve to its fields. -/
theorem resolve_command {d : Decoded} {count : ℕ} {symbols : Symbols} (hfits : d.Fits)
    (hwritable : d.IsWritable count) (hlabels : Labels count symbols) (index line : ℕ) :
    (d.command index line).resolve .initial symbols count = { operands := some d.operands } := by
  have hwritten := d.written
  have hregister := hfits.register_lt
  have hvalue := hfits.value_lt
  simp only [Command.resolve, command]
  generalize d.operandTexts = raw at hwritten ⊢
  generalize d.operands = operands at hwritten ⊢
  cases hwritten with
  | register op_eq =>
    rw [op_eq] at hregister hvalue ⊢
    have hindex : UInt8.ofNat d.register.toNat = d.register.toUInt8 := by simp
    rw [← hindex]
    exact resolveLoad_eq (registerDestination_general hregister) hvalue
  | counter op_eq =>
    rw [op_eq] at hvalue ⊢
    exact resolveLoad_eq rfl hvalue
  | nestedCounter op_eq =>
    rw [op_eq] at hvalue ⊢
    exact resolveLoad_eq rfl hvalue
  | branch family_eq branch =>
    obtain ⟨symbolLine, hsymbol⟩ := hlabels.get?_eq _ (hwritable.target_lt _ (if_pos branch))
    have hlt := hlabels.index_lt _ _ hsymbol
    simp only [family_eq, Operand.resolveBranch, hsymbol, if_pos hlt]
    rfl
  | immediate family_eq branch =>
    have hconstant := constantSource_valueText .initial d.op.opcode.sourceBases
      (value_lt_operandBits hfits hwritable family_eq)
    rcases family_eq with family_eq | family_eq
    · simp only [family_eq, hconstant]
      rfl
    · simp only [family_eq, hconstant]
      rfl
  | bare family_eq branch width_eq => simp only [family_eq]

/-! ## Words of the commands -/

/-- A command with the opcode, the flags and the operands of a word. -/
structure Denotes (d : Decoded) (command : Command) : Prop where
  opcode_eq : command.opcode = d.op.opcode
  flags_eq : command.flags = d.flagSet
  operands_eq : command.operands = d.operands

theorem Denotes.op?_eq {d : Decoded} {command : Command} (h : d.Denotes command) :
    command.op? = some d.op := by
  unfold Command.op?
  rw [h.opcode_eq, h.operands_eq, operands]
  cases d.op <;> rfl

theorem registerWidth_eq_zero (op : MachineOp) : op ≠ .ldReg → op.format.registerWidth = 0 := by
  cases op <;> decide

theorem Denotes.registerIndex_eq {d : Decoded} {command : Command} (h : d.Denotes command)
    (hfits : d.Fits) : command.registerIndex = d.register := by
  have hregister := hfits.register_lt
  unfold Command.registerIndex
  rw [h.operands_eq]
  by_cases hop : d.op = .ldReg
  · rw [hop] at hregister
    have hsmall : d.register.toNat < 8 := hregister
    have hindex : d.register.toUInt8.toUInt16 = d.register := by
      apply UInt16.toNat_inj.1
      simp
      omega
    simp only [operands, hop]
    exact hindex
  · have hzero : d.register = 0 := by
      rw [registerWidth_eq_zero d.op hop] at hregister
      exact UInt16.toNat_inj.1 (Nat.lt_one_iff.1 hregister)
    have hwritten := d.written
    generalize d.operandTexts = raw at hwritten
    generalize d.operands = operands at hwritten ⊢
    rw [hzero]
    cases hwritten with
    | register op_eq => exact absurd op_eq hop
    | _ => rfl

/-- A branch value doubled is an even address, and halved again it is the value. -/
theorem shiftLeft_even {value : UInt16} (h : value.toNat < 2 ^ 15) :
    (value <<< 1) % 2 = 0 ∧ (value <<< 1) >>> 1 = value := by
  have hdouble : (value <<< 1).toNat = 2 * value.toNat := by
    simp [Nat.shiftLeft_eq]
    omega
  constructor
  · apply UInt16.toNat_inj.1
    rw [UInt16.toNat_mod, hdouble]
    exact Nat.mul_mod_right 2 _
  · apply UInt16.toNat_inj.1
    rw [UInt16.toNat_shiftRight, hdouble]
    simp [Nat.shiftRight_eq_div_pow]

theorem namedTarget?_command (index line : ℕ) (d : Decoded) :
    Draft.namedTarget? (d.command index line) =
      d.target?.map fun target ↦ wordLabel target.toNat := by
  simp only [Draft.namedTarget?, command, operandTexts, target?]
  cases d.op <;> rfl

theorem value_lt_of_isBranch {d : Decoded} (hfits : d.Fits) (hbranch : d.op.isBranch = true) :
    d.value.toNat < 2 ^ 10 := by
  have hwidth : ∀ op : MachineOp, op.isBranch = true → op.format.valueWidth = 10 := by
    intro op
    cases op <;> decide
  have hvalue := hfits.value_lt
  rw [hwidth d.op hbranch] at hvalue
  exact hvalue

theorem two_dvd_target {d : Decoded} {target : UInt16} (hfits : d.Fits)
    (h : d.target? = some target) : 2 ∣ target.toNat := by
  by_cases hbranch : d.op.isBranch
  · rw [target?, if_pos hbranch, Option.some.injEq] at h
    have hvalue := value_lt_of_isBranch hfits hbranch
    have heven := congrArg UInt16.toNat (shiftLeft_even (hvalue.trans (by norm_num))).1
    rw [← h]
    exact Nat.dvd_of_mod_eq_zero heven
  · rw [target?, if_neg hbranch] at h
    cases h

/-- The value field of a command is that of the word, once the label of a target has its
address. -/
theorem Denotes.fieldValue_eq {d : Decoded} {command : Command} {symbols : Symbols}
    (h : d.Denotes command) (hfits : d.Fits)
    (htarget : d.op.isBranch = true → ∃ symbol,
      symbols.get? (wordLabel (d.value <<< 1).toNat) = some symbol ∧
        symbol.address = some (d.value <<< 1)) :
    command.fieldValue symbols d.op = .ok d.value := by
  have hwritten := d.written
  rw [← h.operands_eq] at hwritten
  generalize d.operandTexts = raw at hwritten
  generalize hoperands : command.operands = operands at hwritten
  have hplain (hbranch : d.op.isBranch = false) (hconstant : command.constant?.getD 0 = d.value) :
      command.fieldValue symbols d.op = .ok d.value := by
    rw [Command.fieldValue, if_neg (by simp [hbranch]), hconstant]
  cases hwritten with
  | register op_eq => exact hplain (by rw [op_eq]; rfl) (by simp [Command.constant?, hoperands])
  | counter op_eq => exact hplain (by rw [op_eq]; rfl) (by simp [Command.constant?, hoperands])
  | nestedCounter op_eq =>
    exact hplain (by rw [op_eq]; rfl) (by simp [Command.constant?, hoperands])
  | branch _ branch =>
    obtain ⟨symbol, hsymbol, haddress⟩ := htarget branch
    have hvalue := value_lt_of_isBranch hfits branch
    obtain ⟨heven, hhalf⟩ := shiftLeft_even (hvalue.trans (by norm_num))
    have hname : command.target? = some (wordLabel (d.value <<< 1).toNat) := by
      simp [Command.target?, hoperands]
    rw [Command.fieldValue, if_pos branch]
    simp only [Command.branchValue, hname, hsymbol, Option.bind_some, haddress, if_pos heven, hhalf]
  | immediate _ branch => exact hplain branch (by simp [Command.constant?, hoperands])
  | bare _ branch width_eq =>
    have hvalue := hfits.value_lt
    rw [width_eq] at hvalue
    have hzero : d.value = 0 := UInt16.toNat_inj.1 (Nat.lt_one_iff.1 hvalue)
    exact hplain branch (by simp [Command.constant?, hoperands, hzero])

/-- A command that denotes a word without padding bits encodes to that word. -/
theorem Denotes.encode_eq {word : Word} {d : Decoded} {command : Command} {symbols : Symbols}
    (h : d.Denotes command) (hdecode : decode word = some d) (hzero : d.padding = 0)
    (htarget : d.op.isBranch = true → ∃ symbol,
      symbols.get? (wordLabel (d.value <<< 1).toNat) = some symbol ∧
        symbol.address = some (d.value <<< 1)) :
    command.encode symbols = .ok word := by
  have hfits := fits_of_decode hdecode hzero
  rw [Command.encode_of_op h.op?_eq, h.fieldValue_eq hfits htarget, h.registerIndex_eq hfits,
    h.flags_eq]
  change (d.op.format.encode d.register d.flagSet d.value).mapError EncodingFault.overflow =
    .ok word
  rw [encode_decode hdecode hzero]
  rfl

/-- The flags of a word are among those of its format, so none is dropped. -/
theorem Denotes.droppedFlags_isEmpty {d : Decoded} {command : Command} (h : d.Denotes command) :
    command.droppedFlags.isEmpty = true := by
  have hnone : d.flagSet.diff (.ofLetters d.op.format.flags) = .empty := by
    refine FlagSet.ext_contains fun flag ↦ ?_
    rw [FlagSet.contains_diff, FlagSet.contains_empty, Bool.and_eq_false_imp, Bool.not_eq_false',
      flagSet_eq, FlagSet.contains_ofLetters, FlagSet.contains_ofLetters, List.any_eq_true,
      List.any_eq_true]
    rintro ⟨letter, hmem, hflag⟩
    exact ⟨letter, FlagSet.heldLetters_subset _ _ hmem, hflag⟩
  simp only [Command.droppedFlags, h.op?_eq, h.flags_eq, hnone]
  rfl

end Decoded

/-! ## The draft of a listing -/

/-- Words that the source language can write, one after the other. -/
def AreWritable (ds : List Decoded) : Prop := ∀ d ∈ ds, d.Fits ∧ d.IsWritable ds.length

/-- A draft with the commands and the symbols of labelled words. -/
structure IsListing (ds : List Decoded) (draft : Draft) : Prop where
  length_eq : draft.commands.length = ds.length
  command_eq : ∀ (place : ℕ) (command : Command), draft.commands[place]? = some command →
    ∃ d line, ds[place]? = some d ∧ command = d.command place line
  labels : Labels ds.length draft.symbols

/-- Reading a labelled listing leaves its draft, and nothing to report. -/
theorem read_labelledLines {ds : List Decoded} {source : List SourceLine} (report : Report)
    (htext : source.map SourceLine.text = ds.mapIdx Decoded.labelledLine) :
    ∃ reader commands, ({ report } : Reader).read source = (reader, .ok commands) ∧
      reader.constants = .initial ∧ reader.report = report ∧
      IsListing ds (reader.draft commands) := by
  have htext' : source.map SourceLine.text =
      ds.mapIdx fun index d ↦ d.labelledLine (0 + index) := by
    simpa using htext
  obtain ⟨symbols, hlabels, hlines⟩ :=
    @Reader.lines_labelledLines ds source { report } htext' rfl labels_empty
  rw [Nat.zero_add] at hlabels hlines
  have hnumbers : source.length = ds.length := by
    simpa using congrArg List.length htext
  have hread : ({ report } : Reader).read source = ({ report, symbols, count := ds.length },
      .ok (List.zipWith (fun entry line ↦ entry.1.command entry.2 line) (ds.zipIdx 0)
        (source.map SourceLine.number))) := by
    rw [Reader.read, hlines]
    rfl
  refine ⟨_, _, hread, rfl, rfl, ?_, fun place command hcommand ↦ ?_, hlabels⟩
  · simp [Reader.draft, hnumbers]
  · obtain ⟨entry, line, hentry, -, rfl⟩ := List.getElem?_zipWith_eq_some.1 hcommand
    rw [List.getElem?_zipIdx, Option.map_eq_some_iff] at hentry
    obtain ⟨d, hd, rfl⟩ := hentry
    exact ⟨d, line, hd, by rw [Nat.zero_add]⟩

namespace IsListing

variable {ds : List Decoded} {draft : Draft}

theorem resolve_eq (h : IsListing ds draft) (hwords : AreWritable ds) {place : ℕ} {d : Decoded}
    (hd : ds[place]? = some d) (line : ℕ) :
    (d.command place line).resolve .initial draft.symbols draft.commands.length =
      { operands := some d.operands } := by
  have hmem := List.mem_of_getElem? hd
  rw [h.length_eq]
  exact d.resolve_command (hwords d hmem).1 (hwords d hmem).2 h.labels place line

theorem faults_eq_nil (h : IsListing ds draft) (hwords : AreWritable ds) :
    ∀ command ∈ draft.commands,
      (command.resolve .initial draft.symbols draft.commands.length).faults = [] := by
  intro command hmem
  obtain ⟨place, hplace⟩ := List.mem_iff_getElem?.1 hmem
  obtain ⟨d, line, hd, rfl⟩ := h.command_eq place command hplace
  rw [h.resolve_eq hwords hd]

/-- Branches go to even places. -/
theorem two_dvd_of_mem_targetIndices (h : IsListing ds draft) (hwords : AreWritable ds) {place : ℕ}
    (hmem : place ∈ draft.targetIndices) : 2 ∣ place := by
  obtain ⟨name, hname, hplace⟩ := List.mem_filterMap.1 hmem
  obtain ⟨command, hcommand, hnamed⟩ := List.mem_filterMap.1 hname
  obtain ⟨index, hindex⟩ := List.mem_iff_getElem?.1 hcommand
  obtain ⟨d, line, hd, rfl⟩ := h.command_eq index command hindex
  rw [Decoded.namedTarget?_command, Option.map_eq_some_iff] at hnamed
  obtain ⟨target, htarget, rfl⟩ := hnamed
  have hdmem := List.mem_of_getElem? hd
  obtain ⟨symbolLine, hsymbol⟩ := h.labels.get?_eq _ ((hwords d hdmem).2.target_lt target htarget)
  rw [hsymbol, Option.map_some, Option.some.injEq] at hplace
  rw [← hplace]
  exact Decoded.two_dvd_target (hwords d hdmem).1 htarget

/-- The commands of a validated listing denote its words, and each stands at a multiple of its
alignment. -/
theorem denotes_validated (h : IsListing ds draft) (hwords : AreWritable ds) {place : ℕ}
    {command : Command} (hcommand : (draft.validated .initial 2).commands[place]? = some command) :
    ∃ d, ds[place]? = some d ∧ d.Denotes command ∧ command.alignment.toNat ∣ place := by
  rw [Draft.getElem?_validated, Option.map_eq_some_iff] at hcommand
  obtain ⟨written, hwritten, rfl⟩ := hcommand
  obtain ⟨d, line, hd, rfl⟩ := h.command_eq place written hwritten
  refine ⟨d, hd, ?_⟩
  rw [h.resolve_eq hwords hd]
  unfold Draft.alignTarget
  split
  · next hcontains =>
    refine ⟨⟨rfl, rfl, rfl⟩, ?_⟩
    exact h.two_dvd_of_mem_targetIndices hwords (List.contains_iff_mem.1 hcontains)
  · exact ⟨⟨rfl, rfl, rfl⟩, one_dvd place⟩

theorem layout_validated (h : IsListing ds draft) (hwords : AreWritable ds) :
    (draft.validated .initial 2).layout = List.range ds.length := by
  unfold Draft.layout
  rw [Layout.addresses_eq_range fun place alignment halignment ↦ ?_, List.length_map,
    Draft.length_validated, h.length_eq]
  rw [List.getElem?_map, Option.map_eq_some_iff] at halignment
  obtain ⟨command, hcommand, rfl⟩ := halignment
  obtain ⟨d, -, -, hdvd⟩ := h.denotes_validated hwords hcommand
  exact hdvd

/-- The label of every address gets that address. -/
theorem get?_linkedSymbols (h : IsListing ds draft) (hwords : AreWritable ds) {address : ℕ}
    (hlt : address < ds.length) :
    ∃ symbol, (draft.validated .initial 2).linkedSymbols.get? (wordLabel address) = some symbol ∧
      symbol.address = some (UInt16.ofNat address) := by
  obtain ⟨line, hsymbol⟩ := h.labels.get?_eq address hlt
  have haligned := Draft.get?_validated .initial 2 draft (wordLabel address)
  rw [hsymbol, Option.map_some] at haligned
  have hindex := Draft.commandIndex_alignSymbol 2 draft.namedTargets (wordLabel address)
    { commandIndex := address, line }
  have hlength : address < (draft.validated .initial 2).commands.length := by
    rwa [Draft.length_validated, h.length_eq]
  obtain ⟨found, hfound, hlinked⟩ := Draft.get?_linkedSymbols haligned
    (by rw [hindex]; exact List.getElem?_eq_getElem hlength)
  rw [h.layout_validated hwords, hindex, List.getElem?_range hlt,
    Option.some.injEq] at hfound
  exact ⟨_, hlinked, by rw [hfound]⟩

/-- Every command of a listing encodes to its word, and drops no flag. -/
theorem encode_placed (h : IsListing ds draft) (hwords : AreWritable ds) {words : List Word}
    (hdecode : words.map decode = ds.map some) {place : ℕ} {command : Command}
    (hcommand : (draft.validated .initial 2).placed.commands[place]? = some command) :
    command.droppedFlags.isEmpty = true ∧ ∃ word, words[place]? = some word ∧
      command.encode (draft.validated .initial 2).linkedSymbols = .ok word := by
  obtain ⟨validated, address, hvalidated, -, rfl⟩ := List.getElem?_zipWith_eq_some.1 hcommand
  obtain ⟨d, hd, hdenotes, -⟩ := h.denotes_validated hwords hvalidated
  have hplaced : d.Denotes (validated.placedAt address) :=
    ⟨hdenotes.opcode_eq, hdenotes.flags_eq, hdenotes.operands_eq⟩
  have hmem := List.mem_of_getElem? hd
  have hword := congrArg (fun decoded ↦ decoded[place]?) hdecode
  simp only [List.getElem?_map, hd, Option.map_some] at hword
  obtain ⟨word, hword, hsome⟩ := Option.map_eq_some_iff.1 hword
  refine ⟨hplaced.droppedFlags_isEmpty, word, hword, ?_⟩
  refine hplaced.encode_eq hsome (hwords d hmem).2.padding_eq fun hbranch ↦ ?_
  have htarget := (hwords d hmem).2.target_lt (d.value <<< 1) (if_pos hbranch)
  obtain ⟨symbol, hsymbol, haddress⟩ := h.get?_linkedSymbols hwords htarget
  exact ⟨symbol, hsymbol, by rw [haddress, UInt16.ofNat_toNat]⟩

/-- A listing within the program memory links without a word. -/
theorem link_validated (h : IsListing ds draft) (hwords : AreWritable ds) {words : List Word}
    (hdecode : words.map decode = ds.map some) (hlength : ds.length ≤ maxAddress + 1)
    (herrors : draft.report.tally.errors = 0) :
    (draft.validated .initial 2).FitsMemory ∧ (draft.validated .initial 2).link =
      ((draft.validated .initial 2).linked draft.report, .ok ()) := by
  have hfit : (draft.validated .initial 2).FitsMemory := by
    intro address hmem
    rw [h.layout_validated hwords, List.mem_range] at hmem
    omega
  refine ⟨hfit, Draft.link_eq_linked hfit (fun name symbol hsymbol ↦ ?_) (fun command hmem ↦ ?_)
    (fun command hmem ↦ ?_) herrors⟩
  · rw [Draft.get?_validated, Option.map_eq_some_iff] at hsymbol
    obtain ⟨written, hwritten, rfl⟩ := hsymbol
    rw [Draft.commandIndex_alignSymbol, Draft.length_validated, h.length_eq]
    exact h.labels.index_lt name written hwritten
  · obtain ⟨place, hplace⟩ := List.mem_iff_getElem?.1 hmem
    exact (h.encode_placed hwords hdecode hplace).1
  · obtain ⟨place, hplace⟩ := List.mem_iff_getElem?.1 hmem
    obtain ⟨-, word, -, hencode⟩ := h.encode_placed hwords hdecode hplace
    exact ⟨word, hencode⟩

/-- The words of a linked listing are those it was made of. -/
theorem map_code_linked (h : IsListing ds draft) (hwords : AreWritable ds) {words : List Word}
    (hdecode : words.map decode = ds.map some) (report : Report) :
    ((draft.validated .initial 2).linked report).commands.map Command.code = words := by
  have hcount : words.length = ds.length := by
    simpa using congrArg List.length hdecode
  apply List.ext_getElem?
  intro place
  rw [Draft.linked, List.map_map, List.getElem?_map]
  cases hplace : (draft.validated .initial 2).placed.commands[place]? with
  | none =>
    have hlength : (draft.validated .initial 2).placed.commands.length = ds.length := by
      simp [Draft.placed, Draft.length_layout, Draft.length_validated, h.length_eq]
    rw [List.getElem?_eq_none_iff] at hplace
    rw [Option.map_none, List.getElem?_eq_none (by omega)]
  | some command =>
    obtain ⟨-, word, hword, hencode⟩ := h.encode_placed hwords hdecode hplace
    rw [Option.map_some, hword, Function.comp_apply, Command.encoded, hencode]

/-- The words of a linked listing are at the addresses of their labels. -/
theorem map_address_linked (h : IsListing ds draft) (hwords : AreWritable ds)
    (hfit : (draft.validated .initial 2).FitsMemory) (report : Report) :
    ((draft.validated .initial 2).linked report).commands.map Command.address =
      (List.range ds.length).map UInt16.ofNat := by
  have haddresses := Draft.map_address_linked hfit report
  rw [h.layout_validated hwords] at haddresses
  rw [← haddresses, List.map_map]
  exact List.map_congr_left fun command _ ↦ UInt16.ofNat_toNat.symm

end IsListing

/-- Decoding all words of a list that decode. -/
theorem map_decode_eq {words : List Word} (h : ∀ word ∈ words, ∃ d, decode word = some d) :
    words.map decode = (words.filterMap decode).map some := by
  induction words with
  | nil => rfl
  | cons word rest ih =>
    rw [List.forall_mem_cons] at h
    obtain ⟨d, hd⟩ := h.1
    rw [List.map_cons, ih h.2, List.filterMap_cons, hd, List.map_cons]

/-- A labelled listing assembles to the words it was made of, each at the address of its label, and
there is nothing to report. -/
theorem assemble_labelledLines {words : List Word} (hlength : words.length ≤ 65536)
    (hwords : ∀ word ∈ words, ∃ d, decode word = some d ∧ d.IsWritable words.length)
    {source : List SourceLine} (hsource : source.map SourceLine.text = labelledLines words) :
    ∃ program, assemble {} source = (.start none, .ok program) ∧ program.codes = words ∧
      program.addresses = (List.range words.length).map UInt16.ofNat := by
  have hdecode := map_decode_eq fun word hmem ↦ (hwords word hmem).imp fun _ ↦ And.left
  unfold labelledLines at hsource
  generalize hds : words.filterMap decode = ds at hdecode hsource
  have hcount : words.length = ds.length := by
    simpa using congrArg List.length hdecode
  have hwritable : AreWritable ds := by
    intro d hmem
    rw [← hds] at hmem
    obtain ⟨word, hword, hd⟩ := List.mem_filterMap.1 hmem
    obtain ⟨d', hd', hwritable⟩ := hwords word hword
    obtain rfl : d = d' := Option.some.inj (hd.symm.trans hd')
    exact ⟨Decoded.fits_of_decode hd hwritable.padding_eq, hcount ▸ hwritable⟩
  obtain ⟨reader, commands, hread, hconstants, hreport, hlisting⟩ :=
    read_labelledLines (.start none) hsource
  have herrors : (reader.draft commands).report.tally.errors = 0 := by
    rw [Reader.draft, hreport]
    rfl
  have hvalidate : (reader.draft commands).validate reader.constants 2 =
      ((reader.draft commands).validated .initial 2, .ok ()) := by
    rw [hconstants]
    exact Draft.validate_eq_validated 2 herrors (hlisting.faults_eq_nil hwritable)
  obtain ⟨hfit, hlink⟩ := hlisting.link_validated hwritable hdecode (hcount ▸ hlength) herrors
  have hassemble : assemble {} source = assembleInto {} (.start none) source := rfl
  rw [hassemble, assembleInto_of_validate hread hvalidate, hlink]
  refine ⟨_, Prod.ext hreport rfl, hlisting.map_code_linked hwritable hdecode _, ?_⟩
  rw [hcount]
  exact hlisting.map_address_linked hwritable hfit _

/-- Three words that are read back: a branch forward over a load with flags, and a branch back. -/
theorem assemble_labelledLines_loop :
    let words : List Word := [0x2401, 0x57C8, 0x3000]
    let source := (labelledLines words).zipIdx.map fun entry ↦ SourceLine.mk (entry.2 + 1) entry.1
    (∀ word ∈ words, ∃ d, decode word = some d ∧ d.IsWritable words.length) ∧
      ∃ program, assemble {} source = (.start none, .ok program) ∧ program.codes = words ∧
        program.addresses = [0, 1, 2] := by
  intro words source
  have hjump : decode 0x2401 = some
      { op := .jump, register := 0, flags := 0, padding := 0, value := 1, raw := 0x2401 } := by
    decide +kernel
  have hload : decode 0x57C8 = some
      { op := .ldReg, register := 5, flags := 3, padding := 0, value := 200, raw := 0x57C8 } := by
    decide +kernel
  have hloop : decode 0x3000 = some
      { op := .loop, register := 0, flags := 0, padding := 0, value := 0, raw := 0x3000 } := by
    decide +kernel
  have hwords : ∀ word ∈ words, ∃ d, decode word = some d ∧ d.IsWritable words.length := by
    simp only [words, List.forall_mem_cons]
    refine ⟨⟨_, hjump, rfl, nofun, ?_⟩, ⟨_, hload, rfl, nofun, nofun⟩, ⟨_, hloop, rfl, nofun, ?_⟩,
      nofun⟩
    · rintro target ⟨⟩
      decide
    · rintro target ⟨⟩
      decide
  have hsource : source.map SourceLine.text = labelledLines words := by
    simp [source, Function.comp_def]
  exact ⟨hwords, assemble_labelledLines (by decide) hwords hsource⟩

end Sequencer
