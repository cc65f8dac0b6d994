import Mathlib
import Sequencer.Proofs.Binding
import Sequencer.Proofs.Disassembly
import Sequencer.Proofs.ProgramLayout

/-!
# Altered words

Verification compares fields and not words. The fields that it compares fix every bit of a word but
the padding of its format, and every word of 15 bits decodes. So if words of a program are altered,
then verification points out just those commands whose words were altered outside their padding.
-/

namespace Sequencer

open Machine

/-! ## Words that differ in their padding -/

theorem Bits.testBit_toNat_append (front back : List Bool) (i : ℕ) :
    (toNat (front ++ back)).testBit i =
      if i < back.length then (toNat back).testBit i
      else (toNat front).testBit (i - back.length) := by
  have hback := toNat_lt back
  rw [toNat_append, Nat.mul_comm]
  exact Nat.testBit_two_pow_mul_add _ hback i

theorem Bits.testBit_toNat_of_le {bits : List Bool} {i : ℕ} (h : bits.length ≤ i) :
    (toNat bits).testBit i = false :=
  Nat.testBit_lt_two_pow ((toNat_lt bits).trans_le (Nat.pow_le_pow_right (by norm_num) h))

namespace Format

/-- The words are the same in every bit but those of the padding, which stands above the value. -/
def AgreesOutsidePadding (format : Format) (word other : Word) : Prop :=
  ∀ i < 16, i < format.valueWidth ∨ format.valueWidth + format.padding.length ≤ i →
    word.toNat.testBit i = other.toNat.testBit i

instance (format : Format) (word other : Word) :
    Decidable (format.AgreesOutsidePadding word other) :=
  inferInstanceAs (Decidable (∀ i < 16, _ → _))

/-- A word with its padding field marked off. -/
structure Marks (format : Format) (word : Word) (front padding back : List Bool) : Prop where
  word_lt : word.toNat < Bits.capacity wordBits
  padding_length : padding.length = format.padding.length
  back_length : back.length = format.valueWidth
  bits_eq : Bits.ofNat wordBits word.toNat = front ++ (padding ++ back)

variable {format : Format} {word other : Word}
  {front padding back front' padding' back' : List Bool}

theorem Marks.front_length (h : format.Marks word front padding back) :
    front.length + (format.padding.length + format.valueWidth) = wordBits := by
  have hlength := congrArg List.length h.bits_eq
  rw [Bits.length_ofNat, List.length_append, List.length_append, h.padding_length,
    h.back_length] at hlength
  exact hlength.symm

theorem Marks.toNat_eq (h : format.Marks word front padding back) :
    word.toNat = Bits.toNat (front ++ (padding ++ back)) := by
  rw [← h.bits_eq, Bits.toNat_ofNat h.word_lt]

theorem Marks.testBit_back (h : format.Marks word front padding back) {i : ℕ}
    (hi : i < format.valueWidth) : word.toNat.testBit i = (Bits.toNat back).testBit i := by
  have hback : i < back.length := h.back_length ▸ hi
  rw [h.toNat_eq, Bits.testBit_toNat_append, if_pos (by rw [List.length_append]; omega),
    Bits.testBit_toNat_append, if_pos hback]

theorem Marks.testBit_front (h : format.Marks word front padding back) (i : ℕ) :
    word.toNat.testBit (format.valueWidth + format.padding.length + i) =
      (Bits.toNat front).testBit i := by
  have hlength : (padding ++ back).length = format.valueWidth + format.padding.length := by
    rw [List.length_append, h.padding_length, h.back_length, Nat.add_comm]
  rw [h.toNat_eq, Bits.testBit_toNat_append, hlength, if_neg (by omega), Nat.add_sub_cancel_left]

/-- Words that agree outside the padding are those with the same bits on both sides of it. -/
theorem Marks.agreesOutsidePadding_iff (h : format.Marks word front padding back)
    (h' : format.Marks other front' padding' back') :
    format.AgreesOutsidePadding word other ↔ front = front' ∧ back = back' := by
  have hfront := h.front_length
  have hfront' := h'.front_length
  have hback := h.back_length
  have hback' := h'.back_length
  have hsize : wordBits = 15 := rfl
  constructor
  · intro hagrees
    constructor
    · refine Bits.toNat_injective (by omega) (Nat.eq_of_testBit_eq fun i ↦ ?_)
      by_cases hi : i < front.length
      · rw [← h.testBit_front, ← h'.testBit_front]
        exact hagrees _ (by omega) (.inr (by omega))
      · rw [Bits.testBit_toNat_of_le (by omega), Bits.testBit_toNat_of_le (by omega)]
    · refine Bits.toNat_injective (by omega) (Nat.eq_of_testBit_eq fun i ↦ ?_)
      by_cases hi : i < format.valueWidth
      · rw [← h.testBit_back hi, ← h'.testBit_back hi]
        exact hagrees i (by omega) (.inl hi)
      · rw [Bits.testBit_toNat_of_le (by omega), Bits.testBit_toNat_of_le (by omega)]
  · rintro ⟨rfl, rfl⟩ i - (hlow | hhigh)
    · rw [h.testBit_back hlow, h'.testBit_back hlow]
    · obtain ⟨k, rfl⟩ := Nat.exists_eq_add_of_le hhigh
      rw [h.testBit_front, h'.testBit_front]

theorem Cuts.marks {register flags value : List Bool}
    (h : format.Cuts word register flags padding value)
    (hword : word.toNat < Bits.capacity wordBits) :
    format.Marks word (digitBits format.code ++ (register ++ flags)) padding value :=
  ⟨hword, h.padding_length, h.value_length, h.bits_eq.trans (by simp)⟩

/-- Each field of a word that was cut is no longer than the word. -/
theorem Cuts.length_le {register flags value : List Bool}
    (h : format.Cuts word register flags padding value) (hsize : format.IsWordSized) :
    register.length ≤ wordBits ∧ value.length ≤ wordBits := by
  rw [h.register_length, h.value_length, ← hsize]
  constructor <;> omega

theorem exists_marks (hsize : format.IsWordSized) (hword : word.toNat < Bits.capacity wordBits) :
    ∃ front padding back, format.Marks word front padding back := by
  have hlength : (Bits.ofNat wordBits word.toNat).length =
      (format.code.length + format.registerWidth + format.flags.length) +
        (format.padding.length + format.valueWidth) := by
    rw [Bits.length_ofNat, ← hsize]
    omega
  obtain ⟨front, rest, hbits, -, hrest⟩ := exists_split hlength
  obtain ⟨padding, back, rfl, hpadding, hback⟩ := exists_split hrest
  exact ⟨front, padding, back, hword, hpadding, hback, hbits⟩

end Format

/-! ## Fields that are compared -/

/-- Decoded with the operation and the bits of the fields that a word was cut into. -/
structure Decoded.Holds (d : Decoded) (op : MachineOp) (register flags value : List Bool) :
    Prop where
  op_eq : d.op = op
  register_eq : d.register = UInt16.ofNat (Bits.toNat register)
  flagSet_eq : d.flagSet = .ofLetters (FlagSet.heldLetters op.format.flags flags)
  value_eq : d.value = UInt16.ofNat (Bits.toNat value)

section

variable {word other : Word} {d e : Decoded}

theorem exists_decode_of_cuts {op : MachineOp} {register flags padding value : List Bool}
    (hword : word.toNat < Bits.capacity wordBits)
    (hcuts : op.format.Cuts word register flags padding value) :
    ∃ d, decode word = some d ∧ d.Holds op register flags value := by
  refine ⟨_, CodeTree.decode_of_cuts CodeTree.ofFormats_standard (Format.mem_standard op)
    (Format.isCompatible_format op) hword hcuts, Format.op_format op, rfl, ?_, rfl⟩
  rw [Decoded.flagSet_eq]
  dsimp only
  rw [Format.op_format, ofNat_toNat_ofNat_toNat hcuts.flags_length (flags_length_le op)]

theorem exists_cuts_of_decode (h : decode word = some d) :
    ∃ register flags padding value, d.op.format.Cuts word register flags padding value ∧
      d.Holds d.op register flags value := by
  obtain ⟨hword, rest, hwalk⟩ := CodeTree.exists_walk_of_decode h
  have hleads : d.op.format.Leads word := ⟨rest, ((CodeTree.walk_standard _ _ _).1 hwalk).symm⟩
  obtain ⟨register, flags, padding, value, hcuts⟩ :=
    Format.exists_cuts (Format.isWordSized_format d.op) hleads
  obtain ⟨found, hfound, hholds⟩ := exists_decode_of_cuts hword hcuts
  obtain rfl := Option.some.inj (h.symm.trans hfound)
  exact ⟨register, flags, padding, value, hcuts, hholds⟩

theorem Bits.ofNat_toNat_injective {front back : List Bool} (hlength : front.length = back.length)
    (hsize : front.length ≤ wordBits)
    (h : UInt16.ofNat (toNat front) = UInt16.ofNat (toNat back)) : front = back := by
  have hnat := congrArg UInt16.toNat h
  rw [toNat_ofNat_toNat hsize, toNat_ofNat_toNat (hlength ▸ hsize)] at hnat
  exact toNat_injective hlength hnat

/-- All that verification compares is the same. -/
structure Decoded.SameFields (d e : Decoded) : Prop where
  op_eq : d.op = e.op
  register_eq : d.register = e.register
  flagSet_eq : d.flagSet = e.flagSet
  value_eq : d.value = e.value

/-- The fields that are compared fix all of a word but its padding. -/
theorem Decoded.sameFields_iff (hd : decode word = some d) (he : decode other = some e) :
    d.SameFields e ↔ e.op.format.AgreesOutsidePadding word other := by
  have hword := (CodeTree.exists_walk_of_decode hd).1
  have hother := (CodeTree.exists_walk_of_decode he).1
  have hsize := Format.isWordSized_format e.op
  obtain ⟨register', flags', padding', value', hcuts', hholds'⟩ := exists_cuts_of_decode he
  constructor
  · intro hsame
    obtain ⟨register, flags, padding, value, hcuts, hholds⟩ := exists_cuts_of_decode hd
    rw [hsame.op_eq] at hcuts hholds
    obtain ⟨hregisters, hvalues⟩ := hcuts.length_le hsize
    have hregister : register = register' := by
      apply Bits.ofNat_toNat_injective _ hregisters
      · rw [← hholds.register_eq, hsame.register_eq, hholds'.register_eq]
      · rw [hcuts.register_length, hcuts'.register_length]
    have hvalue : value = value' := by
      apply Bits.ofNat_toNat_injective _ hvalues
      · rw [← hholds.value_eq, hsame.value_eq, hholds'.value_eq]
      · rw [hcuts.value_length, hcuts'.value_length]
    have hflags : flags = flags' := by
      obtain ⟨hknown, hdistinct⟩ := Format.distinct_flags e.op
      rw [← FlagSet.map_hasLetter_heldLetters hcuts.flags_length hknown hdistinct,
        ← hholds.flagSet_eq, hsame.flagSet_eq, hholds'.flagSet_eq,
        FlagSet.map_hasLetter_heldLetters hcuts'.flags_length hknown hdistinct]
    exact ((hcuts.marks hword).agreesOutsidePadding_iff (hcuts'.marks hother)).2
      ⟨by rw [hregister, hflags], hvalue⟩
  · intro hagrees
    -- the code stands outside the padding, so the word has the same format
    obtain ⟨front, padding, back, hmarks⟩ := Format.exists_marks hsize hword
    obtain ⟨rfl, rfl⟩ := (hmarks.agreesOutsidePadding_iff (hcuts'.marks hother)).1 hagrees
    have hcuts : e.op.format.Cuts word register' flags' padding back :=
      ⟨hcuts'.register_length, hcuts'.flags_length, hmarks.padding_length, hmarks.back_length,
        hmarks.bits_eq.trans (by simp)⟩
    obtain ⟨found, hfound, hholds⟩ := exists_decode_of_cuts hword hcuts
    obtain rfl := Option.some.inj (hd.symm.trans hfound)
    exact ⟨hholds.op_eq, hholds.register_eq.trans hholds'.register_eq.symm,
      hholds.flagSet_eq.trans hholds'.flagSet_eq.symm, hholds.value_eq.trans hholds'.value_eq.symm⟩

theorem value_lt_of_decode (h : decode word = some d) : d.value.toNat < 0x8000 := by
  obtain ⟨register, flags, padding, value, hcuts, hholds⟩ := exists_cuts_of_decode h
  have hlength := (hcuts.length_le (Format.isWordSized_format d.op)).2
  rw [hholds.value_eq, toNat_ofNat_toNat hlength]
  exact (Bits.toNat_lt value).trans_le (Nat.pow_le_pow_right (by norm_num) hlength)

end

theorem MachineOp.ofNat_number_injective {op other : MachineOp}
    (h : UInt16.ofNat op.number = UInt16.ofNat other.number) : op = other := by
  have hmem (op : MachineOp) : op ∈ all := by cases op <;> decide
  have hlt (op : MachineOp) : op.number < UInt16.size :=
    (List.idxOf_lt_length_of_mem (hmem op)).trans (by decide)
  have hnat := congrArg UInt16.toNat h
  rw [UInt16.toNat_ofNat_of_lt' (hlt op), UInt16.toNat_ofNat_of_lt' (hlt other)] at hnat
  exact (List.idxOf_inj (hmem op)).1 hnat

theorem FlagSet.bits_injective {flags other : FlagSet} (h : flags.bits = other.bits) :
    flags = other := by
  obtain ⟨a, b, c, d⟩ := flags
  obtain ⟨a', b', c', d'⟩ := other
  revert h a b c d a' b' c' d'
  decide

namespace Command

theorem compareField_eq_nil_iff {command : Command} {field : ComparedField}
    {expected found : UInt16} :
    command.compareField field expected found = [] ↔ expected = found := by
  unfold compareField
  split <;> simp_all

theorem shiftLeft_injective {a b : UInt16} (ha : a.toNat < 0x8000) (hb : b.toNat < 0x8000)
    (h : a <<< 1 = b <<< 1) : a = b := by
  have hnat : a.toNat * 2 % 65536 = b.toNat * 2 % 65536 := by
    simpa [Nat.shiftLeft_eq] using congrArg UInt16.toNat h
  apply UInt16.toNat_inj.1
  omega

variable {symbols : Symbols} {command : Command} {own decoded : Decoded}

/-- What a word of a command's own operation is compared in. -/
theorem compareWith_of_op (hop : command.op? = some decoded.op) :
    command.compareWith symbols decoded =
      command.compareField .flags (command.flags.inter (.ofLetters decoded.op.format.flags)).bits
          decoded.flagSet.bits ++
        command.compareField .register command.registerIndex decoded.register ++
        if decoded.op.isBranch then
          command.compareField .target (command.expectedTarget symbols) (decoded.value <<< 1)
        else command.compareField .value (command.constant?.getD 0) decoded.value := by
  unfold compareWith Decoded.target?
  rw [hop]
  dsimp only
  rw [if_neg (not_not.2 rfl)]
  congr 1
  cases decoded.op.isBranch <;> rfl

/-- The field that is compared last, be it a target or a value, is that of the command's own
word. -/
theorem Agrees.compareField_eq_nil_iff (h : command.Agrees symbols own)
    (hop : decoded.op = own.op) (hown : own.value.toNat < 0x8000)
    (hvalue : decoded.value.toNat < 0x8000) :
    (if decoded.op.isBranch then
        command.compareField .target (command.expectedTarget symbols) (decoded.value <<< 1)
      else command.compareField .value (command.constant?.getD 0) decoded.value) = [] ↔
      decoded.value = own.value := by
  rw [hop]
  by_cases hbranch : own.op.isBranch = true
  · obtain ⟨name, symbol, address, htarget, hsymbol, haddress, hfound⟩ := h.target_eq hbranch
    have hexpected : command.expectedTarget symbols = own.value <<< 1 := by
      rw [Decoded.target?, if_pos hbranch] at hfound
      simp [expectedTarget, htarget, hsymbol, haddress, ← Option.some.inj hfound]
    rw [if_pos hbranch, hexpected, Command.compareField_eq_nil_iff]
    exact ⟨fun hsame ↦ (shiftLeft_injective hown hvalue hsame).symm, fun hsame ↦ by rw [hsame]⟩
  · rw [if_neg hbranch, Command.compareField_eq_nil_iff, ← h.value_eq (by simpa using hbranch)]
    exact eq_comm

/-- A command matches just what has the fields of its own word. -/
theorem Agrees.compareWith_eq_nil_iff (h : command.Agrees symbols own)
    (hown : own.value.toNat < 0x8000) (hvalue : decoded.value.toNat < 0x8000) :
    command.compareWith symbols decoded = [] ↔ decoded.SameFields own := by
  by_cases hop : decoded.op = own.op
  · rw [compareWith_of_op (by rw [h.op_eq, hop]), List.append_eq_nil_iff, List.append_eq_nil_iff,
      h.compareField_eq_nil_iff hop hown hvalue, Command.compareField_eq_nil_iff,
      Command.compareField_eq_nil_iff, hop, ← h.flags_eq, ← h.register_eq]
    constructor
    · rintro ⟨⟨hflags, hregister⟩, hvalue⟩
      exact ⟨hop, hregister.symm, (FlagSet.bits_injective hflags).symm, hvalue⟩
    · rintro ⟨-, hregister, hflags, hvalue⟩
      exact ⟨⟨by rw [hflags], hregister.symm⟩, hvalue⟩
  · unfold compareWith
    rw [h.op_eq]
    dsimp only
    rw [if_pos (Ne.symm hop), Command.compareField_eq_nil_iff]
    exact iff_of_false (fun hsame ↦ hop (MachineOp.ofNat_number_injective hsame).symm)
      fun hsame ↦ hop hsame.op_eq

/-- A mismatch names the command that it was found in. -/
theorem eq_of_mem_compareWith {mismatch : Mismatch}
    (h : mismatch ∈ command.compareWith symbols decoded) :
    mismatch.index = command.index ∧ mismatch.line = command.line := by
  have hfield {field : ComparedField} {expected found : UInt16}
      (hmem : mismatch ∈ command.compareField field expected found) :
      mismatch.index = command.index ∧ mismatch.line = command.line := by
    unfold compareField at hmem
    split at hmem
    · cases hmem
    · rw [List.mem_singleton.1 hmem]
      exact ⟨rfl, rfl⟩
  unfold compareWith at h
  split at h
  · cases h
  · dsimp only at h
    split at h
    · exact hfield h
    · rw [List.mem_append, List.mem_append] at h
      rcases h with (h | h) | h
      · exact hfield h
      · exact hfield h
      · split at h <;> exact hfield h

/-- With another word, a linked command matches just if only padding was altered. -/
theorem exists_compareWith_eq_nil_iff {word : Word}
    (hencode : command.encode symbols = .ok command.code) (hdecode : decode word = some decoded) :
    ∃ op, command.op? = some op ∧
      (command.compareWith symbols decoded = [] ↔
        op.format.AgreesOutsidePadding word command.code) := by
  obtain ⟨own, hown, hagrees⟩ := exists_agrees_of_encode hencode
  refine ⟨own.op, hagrees.op_eq, ?_⟩
  rw [hagrees.compareWith_eq_nil_iff (value_lt_of_decode hown) (value_lt_of_decode hdecode),
    Decoded.sameFields_iff hdecode hown]

end Command

/-! ## Programs with other words -/

/-- The error that a mismatch is recorded as. -/
def Mismatch.diagnostic (mismatch : Mismatch) : Diagnostic where
  severity := .error
  stage := .disassembler
  line := some mismatch.line
  message := mismatch.message

theorem foldl_error_mismatch (mismatches : List Mismatch) (report : Report) :
    mismatches.foldl
      (fun report mismatch ↦ report.error .disassembler (some mismatch.line) mismatch.message)
      report = report.addErrors (mismatches.map Mismatch.diagnostic) := by
  induction mismatches generalizing report with
  | nil => exact report.addErrors_nil.symm
  | cons mismatch rest ih =>
    rw [List.foldl_cons, ih, Report.error_eq_addErrors, Report.addErrors_addErrors]
    rfl

namespace Program

theorem ComesFrom.index_eq {settings : Settings} {source : List SourceLine} {reader : Reader}
    {written : List Command} {program : Program}
    (h : program.ComesFrom settings source reader written) (place : ℕ) (command : Command)
    (hcommand : program.commands[place]? = some command) : command.index = place := by
  have hindex : program.commands.map Command.index = written.map Command.index :=
    (Draft.map_of_link (fun _ ↦ rfl) h.link_eq).trans
      (Draft.map_validated (fun _ _ _ ↦ rfl) _ _ _)
  have hplace := congrArg (·[place]?) hindex
  simp only [List.getElem?_map, hcommand, Option.map_some] at hplace
  obtain ⟨draft, hdraft, hsame⟩ := Option.map_eq_some_iff.1 hplace.symm
  obtain ⟨last, hlines, -⟩ := Reader.exists_finish_of_read h.read_eq
  rw [← hsame]
  exact (Reader.numbers_of_lines hlines).index_eq place draft hdraft

/-- The program with other words in place of its codes. -/
def withCodes (program : Program) (words : List Word) : Program :=
  { program with
    commands := program.commands.zipWith (fun command word ↦ { command with code := word }) words }

/-- What verification is to find when other words stand in a program: mismatches in the order of the
commands, in just those commands whose words differ outside their padding. -/
structure PointsOut (program : Program) (words : List Word) (mismatches : List Mismatch) :
    Prop where
  ordered : (mismatches.map Mismatch.index).Pairwise (· ≤ ·)
  named : ∀ mismatch ∈ mismatches, ∃ command, program.commands[mismatch.index]? = some command ∧
    mismatch.line = command.line
  mem_iff : ∀ (place : ℕ) (command : Command) (word : Word),
    program.commands[place]? = some command → words[place]? = some word →
      ∃ op, command.op? = some op ∧ (place ∈ mismatches.map Mismatch.index ↔
        ¬ op.format.AgreesOutsidePadding word command.code)

section

variable {program : Program} {words : List Word}
  (hlength : words.length = program.commands.length)

include hlength

theorem codes_withCodes : (program.withCodes words).codes = words := by
  refine List.ext_getElem ?_ fun place _ _ ↦ ?_
  · simp [codes, withCodes, hlength]
  · simp [codes, withCodes]

/-- A comparison does not look at the word that stands in the command. -/
theorem mismatches_withCodes (decoded : List Decoded) :
    (program.withCodes words).mismatches decoded = program.mismatches decoded := by
  unfold mismatches withCodes
  dsimp only
  generalize program.commands = commands at hlength
  induction commands generalizing words decoded with
  | nil => rfl
  | cons command commands ih =>
    cases words with
    | nil => cases hlength
    | cons word words =>
      cases decoded with
      | nil => rfl
      | cons d decoded =>
        have hrest := ih decoded (Nat.succ.inj hlength)
        simp only [List.zipWith_cons_cons, List.zip_cons_cons, List.flatMap_cons, hrest]
        rfl

end

section

variable {program : Program} {words : List Word} {decoded : List Decoded}
  (hindex : ∀ (place : ℕ) (command : Command), program.commands[place]? = some command →
    command.index = place)

include hindex

theorem exists_command_of_mem_mismatches {mismatch : Mismatch}
    (h : mismatch ∈ program.mismatches decoded) :
    ∃ command d, program.commands[mismatch.index]? = some command ∧
      decoded[mismatch.index]? = some d ∧ mismatch.line = command.line ∧
      mismatch ∈ command.compareWith program.symbols d := by
  obtain ⟨⟨command, d⟩, hpair, hmem⟩ := List.mem_flatMap.1 h
  obtain ⟨place, hplace⟩ := List.mem_iff_getElem?.1 hpair
  obtain ⟨hcommand, hd⟩ := List.getElem?_zip_eq_some.1 hplace
  obtain ⟨hnumber, hline⟩ := Command.eq_of_mem_compareWith hmem
  rw [hindex _ _ hcommand] at hnumber
  rw [hnumber]
  exact ⟨command, d, hcommand, hd, hline, hmem⟩

theorem ordered_mismatches :
    ((program.mismatches decoded).map Mismatch.index).Pairwise (· ≤ ·) := by
  rw [mismatches, List.pairwise_map, List.pairwise_flatMap]
  constructor
  · intro pair _
    refine List.pairwise_of_forall_mem_list fun first hfirst second hsecond ↦ ?_
    rw [(Command.eq_of_mem_compareWith hfirst).1, (Command.eq_of_mem_compareWith hsecond).1]
  · rw [List.pairwise_iff_getElem]
    intro place later hplace hlater hlt first hfirst second hsecond
    have hcommands : place < program.commands.length ∧ later < program.commands.length := by
      simp only [List.length_zip, lt_inf_iff] at hplace hlater
      exact ⟨hplace.1, hlater.1⟩
    rw [(Command.eq_of_mem_compareWith hfirst).1, (Command.eq_of_mem_compareWith hsecond).1,
      List.getElem_zip, List.getElem_zip,
      hindex _ _ (List.getElem?_eq_getElem hcommands.1),
      hindex _ _ (List.getElem?_eq_getElem hcommands.2)]
    exact hlt.le

/-- Comparing the commands of a linked program with other words points out what was altered. -/
theorem pointsOut_mismatches
    (hencode : ∀ command ∈ program.commands, command.encode program.symbols = .ok command.code)
    (hdecoded : words.map decode = decoded.map some) :
    program.PointsOut words (program.mismatches decoded) where
  ordered := ordered_mismatches hindex
  named := by
    intro mismatch hmem
    obtain ⟨command, d, hcommand, -, hline, -⟩ := exists_command_of_mem_mismatches hindex hmem
    exact ⟨command, hcommand, hline⟩
  mem_iff := by
    intro place command word hcommand hword
    obtain ⟨d, hd, hdecode⟩ : ∃ d, decoded[place]? = some d ∧ decode word = some d := by
      have hplace := congrArg (·[place]?) hdecoded
      simpa [hword, eq_comm] using hplace
    obtain ⟨op, hop, hiff⟩ := Command.exists_compareWith_eq_nil_iff
      (hencode command (List.mem_of_getElem? hcommand)) hdecode
    refine ⟨op, hop, ?_⟩
    rw [← hiff, List.mem_map]
    constructor
    · rintro ⟨mismatch, hmem, rfl⟩
      obtain ⟨own, own', hown, hown', -, hfound⟩ := exists_command_of_mem_mismatches hindex hmem
      rw [hcommand] at hown
      rw [hd] at hown'
      rw [Option.some.inj hown, Option.some.inj hown']
      exact List.ne_nil_of_mem hfound
    · intro hne
      obtain ⟨mismatch, hmem⟩ := List.exists_mem_of_ne_nil _ hne
      refine ⟨mismatch, List.mem_flatMap.2 ⟨(command, d), ?_, hmem⟩, ?_⟩
      · exact List.mem_of_getElem? (List.getElem?_zip_eq_some.2 ⟨hcommand, hd⟩)
      · rw [(Command.eq_of_mem_compareWith hmem).1, hindex _ _ hcommand]

end

/-- There is no mismatch just if all words agree with the codes outside their padding. -/
theorem PointsOut.eq_nil_iff {program : Program} {words : List Word} {mismatches : List Mismatch}
    (h : program.PointsOut words mismatches)
    (hlength : words.length = program.commands.length) :
    mismatches = [] ↔ ∀ (place : ℕ) (command : Command) (word : Word) (op : MachineOp),
      program.commands[place]? = some command → words[place]? = some word →
        command.op? = some op → op.format.AgreesOutsidePadding word command.code := by
  constructor
  · rintro rfl place command word op hcommand hword hop
    obtain ⟨other, hother, hiff⟩ := h.mem_iff place command word hcommand hword
    obtain rfl := Option.some.inj (hop.symm.trans hother)
    simpa using hiff
  · intro hall
    by_contra hne
    obtain ⟨mismatch, hmem⟩ := List.exists_mem_of_ne_nil _ hne
    obtain ⟨command, hcommand, -⟩ := h.named mismatch hmem
    have hlt := (List.getElem?_eq_some_iff.1 hcommand).1
    have hword := List.getElem?_eq_getElem (hlength ▸ hlt)
    obtain ⟨op, hop, hiff⟩ := h.mem_iff _ _ _ hcommand hword
    exact hiff.1 (List.mem_map_of_mem hmem) (hall _ _ _ _ hcommand hword hop)

/-- Verification catches whatever is done to the words of a program outside their padding. The first
word of more than 15 bits ends it. If there is none, then it points out the commands whose words
differ outside their padding, in their order and with one error for each mismatch. -/
theorem verify_withCodes {settings : Settings} {source : List SourceLine} {program : Program}
    (h : (assemble settings source).2 = .ok program) {words : List Word}
    (hlength : words.length = program.commands.length) (report : Report) :
    (∀ (index : ℕ) (word : Word), words[index]? = some word → 0x8000 ≤ word.toNat →
      (∀ earlier < index, ∀ other, words[earlier]? = some other → other.toNat < 0x8000) →
        ((program.withCodes words).verify report).2 = .error (.unknownWord index word)) ∧
    ((∀ word ∈ words, word.toNat < 0x8000) →
      ∃ mismatches, (program.withCodes words).verify report =
          (report.addErrors (mismatches.map Mismatch.diagnostic), .ok mismatches) ∧
        program.PointsOut words mismatches ∧
        (mismatches = [] ↔ ∀ (place : ℕ) (command : Command) (word : Word) (op : MachineOp),
          program.commands[place]? = some command → words[place]? = some word →
            command.op? = some op → op.format.AgreesOutsidePadding word command.code)) := by
  have hcodes := codes_withCodes hlength
  constructor
  · intro index word hword hwide hfirst
    obtain ⟨message, hrun⟩ := disassemble_of_isFirstWide ⟨hword, hwide, hfirst⟩ report
    unfold verify
    rw [hcodes, hrun]
  · intro hnarrow
    obtain ⟨reader, written, hfrom⟩ := exists_comesFrom_of_assemble h
    obtain ⟨decoded, hdecoded⟩ := exists_decoded_of_narrow hnarrow
    have hpoints :=
      pointsOut_mismatches hfrom.index_eq (Draft.encode_of_link hfrom.link_eq) hdecoded
    refine ⟨program.mismatches decoded, ?_, hpoints, hpoints.eq_nil_iff hlength⟩
    unfold verify
    rw [hcodes, disassemble_of_map_decode hdecoded, ← mismatches_withCodes hlength]
    dsimp only
    rw [foldl_error_mismatch]

/-- A load left as it is, a branch to another target, a return with other padding and a pause that
was made a load; and then two words of 16 bits, of which the first is named. -/
theorem verify_withCodes_mixed :
    ∃ (program : Program) (mismatches : List Mismatch),
      (assemble {} (SourceLine.ofText
        "@top: S LD REG3, 7\nJUMP @top\nRETURN\nA NOOP 5".toList)).2 = .ok program ∧
      program.codes = [0x4E07, 0x2400, 0x3800, 0x6905] ∧
      (program.withCodes [0x4E07, 0x2401, 0x38FF, 0x4905]).verify {} =
        (({} : Report).addErrors (mismatches.map Mismatch.diagnostic), .ok mismatches) ∧
      (0 ∉ mismatches.map Mismatch.index ∧ 1 ∈ mismatches.map Mismatch.index ∧
        2 ∉ mismatches.map Mismatch.index ∧ 3 ∈ mismatches.map Mismatch.index) ∧
      ((program.withCodes [0x4E07, 0x7FFF, 0x8000, 0xFFFF]).verify {}).2 =
        .error (.unknownWord 2 0x8000) := by
  generalize hsource : SourceLine.ofText
    "@top: S LD REG3, 7\nJUMP @top\nRETURN\nA NOOP 5".toList = source
  have hrun : (assemble {} source).2.toOption.map
      (fun program ↦ program.commands.map fun command ↦ (command.op?, command.code)) =
        some [(some .ldReg, 0x4E07), (some .jump, 0x2400), (some .ret, 0x3800),
          (some .noopC, 0x6905)] := by
    rw [← hsource]
    decide +kernel
  cases hassemble : (assemble {} source).2 with
  | error failure => simp [hassemble, Except.toOption] at hrun
  | ok program =>
    have hcommands : program.commands.map (fun command ↦ (command.op?, command.code)) =
        [(some .ldReg, 0x4E07), (some .jump, 0x2400), (some .ret, 0x3800),
          (some .noopC, 0x6905)] := by
      simpa [hassemble, Except.toOption] using hrun
    have hlength : 4 = program.commands.length := by
      simpa using (congrArg List.length hcommands).symm
    have hcodes : program.codes = [0x4E07, 0x2400, 0x3800, 0x6905] := by
      simpa [codes, Function.comp_def] using congrArg (List.map Prod.snd) hcommands
    have haltered : ([0x4E07, 0x2401, 0x38FF, 0x4905] : List Word).length =
        program.commands.length := hlength
    have hwide : ([0x4E07, 0x7FFF, 0x8000, 0xFFFF] : List Word).length =
        program.commands.length := hlength
    obtain ⟨mismatches, hverify, hpoints, -⟩ :=
      (verify_withCodes hassemble haltered {}).2 (by simp)
    have hplace (place : ℕ) (op : MachineOp) (code word : Word)
        (hop : (program.commands.map fun command ↦ (command.op?, command.code))[place]? =
          some (some op, code))
        (hword : ([0x4E07, 0x2401, 0x38FF, 0x4905] : List Word)[place]? = some word) :
        place ∈ mismatches.map Mismatch.index ↔ ¬ op.format.AgreesOutsidePadding word code := by
      rw [List.getElem?_map, Option.map_eq_some_iff] at hop
      obtain ⟨command, hcommand, hpair⟩ := hop
      obtain ⟨hop, rfl⟩ := Prod.mk.inj hpair
      obtain ⟨found, hfound, hiff⟩ := hpoints.mem_iff place command word hcommand hword
      obtain rfl := Option.some.inj (hop.symm.trans hfound)
      exact hiff
    rw [hcommands] at hplace
    refine ⟨program, mismatches, rfl, hcodes, hverify, ⟨?_, ?_, ?_, ?_⟩, ?_⟩
    · exact fun h ↦ (hplace 0 .ldReg _ _ rfl rfl).1 h (by decide +kernel)
    · exact (hplace 1 .jump _ _ rfl rfl).2 (by decide +kernel)
    · exact fun h ↦ (hplace 2 .ret _ _ rfl rfl).1 h (by decide +kernel)
    · exact (hplace 3 .noopC _ _ rfl rfl).2 (by decide +kernel)
    · refine (verify_withCodes hassemble hwide {}).1 2 0x8000 rfl (by decide +kernel) ?_
      intro earlier hearlier other hother
      interval_cases earlier <;> cases hother <;> decide +kernel

end Program

end Sequencer
