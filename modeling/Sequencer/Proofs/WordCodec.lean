import Mathlib
import Sequencer.Machine.Decoded
import Sequencer.Proofs.Flag
import Sequencer.Proofs.PrefixCode

/-!
# Encoding and decoding words

Encoding succeeds on just the operands that fit, and the bits of the word are then the bits of the
fields. Decoding cuts the bits of a word at the same places, as long as a table agrees with the
standard formats on where the fields are. The two round trips are proved for every such table from
the fields that the 15 bits of a word are cut into; for the standard table they say that encoding
and decoding undo each other up to padding.
-/

namespace Sequencer

open Machine

/-- Every character of the text is one of ASCII. -/
def Text.IsAscii (text : Text) : Prop := ∀ c ∈ text, c.toNat < 128

theorem Text.byteLength_of_isAscii {text : Text} (h : text.IsAscii) :
    byteLength text = text.length := by
  induction text with
  | nil => rfl
  | cons c rest ih =>
    obtain ⟨hc, hrest⟩ := List.forall_mem_cons.1 h
    have hsize : c.utf8Size = 1 := by
      rw [Char.utf8Size, if_pos]
      exact UInt32.le_iff_toNat_le.2 (Nat.le_of_lt_succ hc)
    rw [byteLength, ih hrest, hsize, List.length_cons, Nat.add_comm]

namespace Format

/-- The bits of the fields of an instruction, the highest first. -/
def bits (format : Format) (register : UInt16) (flags : FlagSet) (value : UInt16) : List Bool :=
  digitBits format.code ++ (Bits.ofNat format.registerWidth register.toNat ++
    (format.flags.map flags.hasLetter ++ (digitBits format.padding ++
      Bits.ofNat format.valueWidth value.toNat)))

/-- The fields of the format take up a whole word. -/
def IsWordSized (format : Format) : Prop :=
  format.code.length + format.registerWidth + format.flags.length + format.padding.length +
    format.valueWidth = wordBits

theorem length_bits {format : Format} (hsize : format.IsWordSized) (register : UInt16)
    (flags : FlagSet) (value : UInt16) :
    (format.bits register flags value).length = wordBits := by
  rw [← hsize]
  simp [bits, digitBits, Bits.length_ofNat, Nat.add_assoc]

theorem bits_fields (format : Format) (register : UInt16) (flags : FlagSet) (value : UInt16) :
    (format.fields register flags value).flatMap Field.bits = format.bits register flags value := by
  simp only [fields, List.flatMap_cons, List.flatMap_nil, List.append_nil, Field.bits_ofDigits,
    Field.bits_ofFlags]
  rfl

theorem fits_fields {format : Format} {register value : UInt16} (flags : FlagSet)
    (hregister : register.toNat < Bits.capacity format.registerWidth)
    (hvalue : value.toNat < Bits.capacity format.valueWidth) :
    ∀ field ∈ format.fields register flags value, field.Fits := by
  simp only [fields, List.forall_mem_cons]
  exact ⟨Field.fits_ofDigits _, hregister, Field.fits_ofFlags _ _, Field.fits_ofDigits _, hvalue,
    by simp⟩

theorem isWordSized_format (op : MachineOp) : op.format.IsWordSized := by
  cases op <;> rfl

theorem eq_ofNat_toNat_iff {bits : List Bool} (hlength : bits.length = wordBits) (word : Word) :
    UInt16.ofNat (Bits.toNat bits) = word ↔
      word.toNat < Bits.capacity wordBits ∧ Bits.ofNat wordBits word.toNat = bits := by
  have hbits := Bits.toNat_lt bits
  rw [hlength] at hbits
  have hsmall : Bits.capacity wordBits < UInt16.size := by decide
  constructor
  · rintro rfl
    rw [UInt16.toNat_ofNat_of_lt' (hbits.trans hsmall)]
    refine ⟨hbits, ?_⟩
    rw [← hlength]
    exact Bits.ofNat_toNat bits
  · rintro ⟨hword, rfl⟩
    rw [Bits.toNat_ofNat hword, UInt16.ofNat_toNat]

/-- Encoding succeeds on operands that fit, and then the bits of the word are those of the
fields. -/
theorem encode_eq_ok_iff {format : Format} (hsize : format.IsWordSized) (register : UInt16)
    (flags : FlagSet) (value : UInt16) (word : Word) :
    format.encode register flags value = .ok word ↔
      register.toNat < Bits.capacity format.registerWidth ∧
        value.toNat < Bits.capacity format.valueWidth ∧
          word.toNat < Bits.capacity wordBits ∧
            Bits.ofNat wordBits word.toNat = format.bits register flags value := by
  unfold encode
  by_cases hregister : register.toNat < Bits.capacity format.registerWidth
  · by_cases hvalue : value.toNat < Bits.capacity format.valueWidth
    · have hlength := length_bits hsize register flags value
      have hwidth : totalWidth (format.fields register flags value) = wordBits := by
        rw [totalWidth_eq, bits_fields, hlength]
      rw [if_neg (by omega), if_neg (by omega)]
      simp only [hwidth, Nat.sub_self, pack_eq_toNat (fits_fields flags hregister hvalue),
        bits_fields, Except.ok.injEq, hregister, hvalue, true_and]
      rw [show Bits.capacity 0 = 1 from rfl, Nat.mul_one]
      exact eq_ofNat_toNat_iff hlength word
    · rw [if_neg (by omega), if_pos (by omega)]
      simp [hvalue]
  · rw [if_pos (by omega)]
    simp [hregister]

/-- The texts of the format are of ASCII, so that each character of them stands for one bit. -/
structure IsAscii (format : Format) : Prop where
  code : format.code.IsAscii
  flags : format.flags.IsAscii
  padding : format.padding.IsAscii

theorem IsAscii.isWordSized {format : Format} (hascii : format.IsAscii)
    (hwidth : format.width = wordBits) : format.IsWordSized := by
  unfold width at hwidth
  rwa [Text.byteLength_of_isAscii hascii.code, Text.byteLength_of_isAscii hascii.flags,
    Text.byteLength_of_isAscii hascii.padding] at hwidth

/-- What encoding does with a format of 15 bits, however they are divided among the fields. It takes
just the operands that fit, and the register is looked at first. The word is then the fields side by
side, the highest bit first: the digits of the code, the register, a bit for each letter of the
layout that is set where the letter belongs to a flag that is there, the digits of the padding, and
the value. -/
theorem encode_packs {format : Format} (hascii : format.IsAscii) (hwidth : format.width = 15)
    (register : UInt16) (flags : FlagSet) (value : UInt16) :
    ((∃ word, format.encode register flags value = .ok word) ↔
        register.toNat < 2 ^ format.registerWidth ∧ value.toNat < 2 ^ format.valueWidth) ∧
      (2 ^ format.registerWidth ≤ register.toNat →
        format.encode register flags value =
          .error ⟨.register, register, format.registerWidth⟩) ∧
      (register.toNat < 2 ^ format.registerWidth → 2 ^ format.valueWidth ≤ value.toNat →
        format.encode register flags value = .error ⟨.immediate, value, format.valueWidth⟩) ∧
      ∀ word, format.encode register flags value = .ok word →
        word.toNat < 2 ^ 15 ∧
          Bits.ofNat 15 word.toNat =
            format.code.map (· == '1') ++ Bits.ofNat format.registerWidth register.toNat ++
              format.flags.map (fun letter ↦ (Flag.ofLetter? letter).any flags.contains) ++
              format.padding.map (· == '1') ++ Bits.ofNat format.valueWidth value.toNat := by
  have hsize := hascii.isWordSized hwidth
  refine ⟨?_, fun hregister ↦ if_pos hregister, fun hregister hvalue ↦ ?_, fun word hword ↦ ?_⟩
  · simp only [encode_eq_ok_iff hsize]
    constructor
    · rintro ⟨word, hregister, hvalue, -⟩
      exact ⟨hregister, hvalue⟩
    · rintro ⟨hregister, hvalue⟩
      exact ⟨_, hregister, hvalue, (eq_ofNat_toNat_iff (length_bits hsize _ _ _) _).1 rfl⟩
  · exact (if_neg (Nat.not_le.2 hregister)).trans (if_pos hvalue)
  · obtain ⟨-, -, hlt, hbits⟩ := (encode_eq_ok_iff hsize _ _ _ _).1 hword
    refine ⟨hlt, hbits.trans ?_⟩
    simp only [bits, List.append_assoc]
    rfl

/-- Code, register, flags, padding and value of a format that is none of the machine's: a letter for
no flag and one that stands twice, and operands that just fit or just do not. -/
theorem encode_packs_uneven :
    ∃ (format : Format) (word : Word),
      format = ⟨.wait, "odd", "1".toList, "XKK".toList, 2, "01".toList, 7⟩ ∧
      format.encode 3 (.ofLetters "KA".toList) 127 = .ok word ∧
      Bits.ofNat 15 word.toNat =
        [true] ++ [true, true] ++ [false, true, true] ++ [false, true] ++
          List.replicate 7 true ∧
      format.encode 4 .empty 128 = .error ⟨.register, 4, 2⟩ ∧
      format.encode 3 .empty 128 = .error ⟨.immediate, 128, 7⟩ := by
  generalize hformat :
    (⟨.wait, "odd", "1".toList, "XKK".toList, 2, "01".toList, 7⟩ : Format) = format
  have hascii : format.IsAscii := by
    rw [← hformat]
    constructor <;> simp [Text.IsAscii]
  have hwidth : format.width = 15 := by
    rw [← hformat]
    decide +kernel
  obtain ⟨hok, -, -, hbits⟩ := encode_packs hascii hwidth 3 (.ofLetters "KA".toList) 127
  obtain ⟨word, hword⟩ : ∃ word, format.encode 3 (.ofLetters "KA".toList) 127 = .ok word :=
    hok.2 (by rw [← hformat]; decide)
  refine ⟨format, word, rfl, hword, (hbits word hword).2.trans ?_, ?_, ?_⟩
  · rw [← hformat]
    decide +kernel
  · have hregister := (encode_packs hascii hwidth 4 .empty 128).2.1 (by rw [← hformat]; decide)
    rwa [← hformat] at hregister ⊢
  · have hvalue := (encode_packs hascii hwidth 3 .empty 128).2.2.1 (by rw [← hformat]; decide)
      (by rw [← hformat]; decide)
    rwa [← hformat] at hvalue ⊢

end Format

theorem takeField_eq {width : ℕ} {front back : List Bool} (hlength : front.length = width) :
    takeField width (front ++ back) = (UInt16.ofNat (Bits.toNat front), back) := by
  subst hlength
  simp [takeField]

theorem toNat_ofNat_toNat {bits : List Bool} (hlength : bits.length ≤ wordBits) :
    (UInt16.ofNat (Bits.toNat bits)).toNat = Bits.toNat bits := by
  have hbits := Bits.toNat_lt bits
  have hcapacity : Bits.capacity bits.length ≤ Bits.capacity wordBits :=
    Nat.pow_le_pow_right (by norm_num) hlength
  have hsmall : Bits.capacity wordBits < UInt16.size := by decide
  exact UInt16.toNat_ofNat_of_lt' (by omega)

theorem ofNat_toNat_ofNat_toNat {bits : List Bool} {width : ℕ} (hlength : bits.length = width)
    (hwidth : width ≤ wordBits) :
    Bits.ofNat width (UInt16.ofNat (Bits.toNat bits)).toNat = bits := by
  rw [toNat_ofNat_toNat (hlength.trans_le hwidth), ← hlength]
  exact Bits.ofNat_toNat bits

theorem exists_split {bits : List Bool} {a b : ℕ} (hlength : bits.length = a + b) :
    ∃ front back, bits = front ++ back ∧ front.length = a ∧ back.length = b :=
  ⟨bits.take a, bits.drop a, (List.take_append_drop a bits).symm, by simp [hlength],
    by simp [hlength]⟩

/-! ## Fields of a word -/

namespace Format

/-- The bits of a word as the code of a format and the fields after it. -/
structure Cuts (format : Format) (word : Word) (register flags padding value : List Bool) :
    Prop where
  register_length : register.length = format.registerWidth
  flags_length : flags.length = format.flags.length
  padding_length : padding.length = format.padding.length
  value_length : value.length = format.valueWidth
  bits_eq : Bits.ofNat wordBits word.toNat =
    digitBits format.code ++ (register ++ (flags ++ (padding ++ value)))

/-- A word with the code of a format in front can be cut into its fields. -/
theorem exists_cuts {format : Format} (hsize : format.IsWordSized) {word : Word}
    (hleads : format.Leads word) :
    ∃ register flags padding value, format.Cuts word register flags padding value := by
  obtain ⟨rest, hbits⟩ := hleads
  have hlength : rest.length = format.registerWidth + (format.flags.length +
      (format.padding.length + format.valueWidth)) := by
    have htotal := congrArg List.length hbits
    rw [Bits.length_ofNat, List.length_append, digitBits, List.length_map] at htotal
    unfold IsWordSized at hsize
    omega
  obtain ⟨register, rest, rfl, hregister, hrest⟩ := exists_split hlength
  obtain ⟨flags, rest, rfl, hflags, hrest⟩ := exists_split hrest
  obtain ⟨padding, value, rfl, hpadding, hvalue⟩ := exists_split hrest
  exact ⟨register, flags, padding, value, hregister, hflags, hpadding, hvalue, hbits.symm⟩

/-- A format that cuts words at the places where the standard format of its operation does. -/
structure IsCompatible (format : Format) : Prop where
  flags_eq : format.flags = format.op.format.flags
  registerWidth_eq : format.registerWidth = format.op.format.registerWidth
  padding_length_eq : format.padding.length = format.op.format.padding.length
  valueWidth_eq : format.valueWidth = format.op.format.valueWidth
  isBits_padding : Text.IsBits format.padding

theorem digitBits_padding (op : MachineOp) :
    digitBits op.format.padding = List.replicate op.format.padding.length false := by
  cases op <;> rfl

theorem isCompatible_format (op : MachineOp) : op.format.IsCompatible := by
  refine ⟨by rw [op_format], by rw [op_format], by rw [op_format], by rw [op_format], ?_⟩
  intro c hmem
  have hzero : op.format.padding.all (· == '0') = true := by cases op <;> rfl
  exact .inl (by simpa using List.all_eq_true.1 hzero c hmem)

/-- The layouts of the machine name known flags, each at most once. -/
theorem distinct_flags (op : MachineOp) :
    (∀ letter ∈ op.format.flags, Flag.ofLetter? letter ≠ none) ∧
      (op.format.flags.map Flag.ofLetter?).Nodup := by
  cases op <;> simp [MachineOp.format, MachineOp.layout, Flag.ofLetter?]

theorem byteLength_flags (op : MachineOp) :
    Text.byteLength op.format.flags = op.format.flags.length := by
  cases op <;> rfl

theorem byteLength_of_isBits {text : Text} (h : text.IsBits) :
    Text.byteLength text = text.length := by
  refine Text.byteLength_of_isAscii fun c hmem ↦ ?_
  obtain rfl | rfl := h c hmem <;> decide

theorem IsCompatible.isWordSized {format : Format} (hcompatible : format.IsCompatible)
    (hplaceable : format.IsPlaceable) : format.IsWordSized := by
  have hwidth := hplaceable.width_eq
  have hflags := byteLength_flags format.op
  rw [← hcompatible.flags_eq] at hflags
  unfold width at hwidth
  rw [byteLength_of_isBits hplaceable.isBits_code, hflags,
    byteLength_of_isBits hcompatible.isBits_padding] at hwidth
  exact hwidth

/-- Encoding the fields that a word was cut into gives back the word, but with the padding of the
format. -/
theorem encode_of_cuts {format : Format} (hcompatible : format.IsCompatible)
    (hsize : format.IsWordSized) {word : Word} {register flags padding value : List Bool}
    (hcuts : format.Cuts word register flags padding value) :
    ∃ again : Word,
      format.encode (UInt16.ofNat (Bits.toNat register))
          (.ofLetters (FlagSet.heldLetters format.flags flags))
          (UInt16.ofNat (Bits.toNat value)) = .ok again ∧
        again.toNat < Bits.capacity wordBits ∧
        format.Cuts again register flags (digitBits format.padding) value := by
  have hwidths := hsize
  unfold IsWordSized at hwidths
  have hregister := hcuts.register_length
  have hvalue := hcuts.value_length
  have hregisterNat := @toNat_ofNat_toNat register (by omega)
  have hvalueNat := @toNat_ofNat_toNat value (by omega)
  obtain ⟨hknown, hdistinct⟩ := distinct_flags format.op
  rw [← hcompatible.flags_eq] at hknown hdistinct
  have hbits : format.bits (UInt16.ofNat (Bits.toNat register))
      (.ofLetters (FlagSet.heldLetters format.flags flags)) (UInt16.ofNat (Bits.toNat value)) =
        digitBits format.code ++ (register ++ (flags ++ (digitBits format.padding ++ value))) := by
    rw [bits, FlagSet.map_hasLetter_heldLetters hcuts.flags_length hknown hdistinct, hregisterNat,
      hvalueNat, ← hregister, ← hvalue, Bits.ofNat_toNat, Bits.ofNat_toNat]
  have hlength := length_bits hsize (UInt16.ofNat (Bits.toNat register))
    (.ofLetters (FlagSet.heldLetters format.flags flags)) (UInt16.ofNat (Bits.toNat value))
  rw [hbits] at hlength
  obtain ⟨hword, hagain⟩ := (eq_ofNat_toNat_iff hlength _).1 rfl
  refine ⟨_, (encode_eq_ok_iff hsize _ _ _ _).2 ⟨?_, ?_, hword, hagain.trans hbits.symm⟩, hword,
    hregister, hcuts.flags_length, List.length_map _, hvalue, hagain⟩
  · rw [hregisterNat, ← hregister]
    exact Bits.toNat_lt register
  · rw [hvalueNat, ← hvalue]
    exact Bits.toNat_lt value

end Format

theorem Decoded.flagSet_eq (d : Decoded) :
    d.flagSet = FlagSet.ofLetters (FlagSet.heldLetters d.op.format.flags
      (Bits.ofNat d.op.format.flags.length d.flags.toNat)) := rfl

theorem flags_length_le (op : MachineOp) : op.format.flags.length ≤ wordBits := by
  cases op <;> decide

/-! ## Compatible tables -/

namespace CodeTree

section

variable {formats : List Format} {tree : CodeTree} {format : Format} {word : Word}

/-- The fields of a decoded word are those that its format cuts. -/
theorem decode_of_cuts (htree : ofFormats formats = .ok tree) (hmem : format ∈ formats)
    (hcompatible : format.IsCompatible) {register flags padding value : List Bool}
    (hword : word.toNat < Bits.capacity wordBits)
    (hcuts : format.Cuts word register flags padding value) :
    tree.decode word = some
      { op := format.op
        register := UInt16.ofNat (Bits.toNat register)
        flags := UInt16.ofNat (Bits.toNat flags)
        padding := UInt16.ofNat (Bits.toNat padding)
        value := UInt16.ofNat (Bits.toNat value)
        raw := word } := by
  have hwalk := (walk_ofFormats htree _ format.op _).2 ⟨format, hmem, rfl, hcuts.bits_eq⟩
  have hregister := hcuts.register_length.trans hcompatible.registerWidth_eq
  have hflags := hcuts.flags_length.trans (congrArg List.length hcompatible.flags_eq)
  have hpadding := hcuts.padding_length.trans hcompatible.padding_length_eq
  have hvalue := hcuts.value_length.trans hcompatible.valueWidth_eq
  have hlast : takeField format.op.format.valueWidth value =
      (UInt16.ofNat (Bits.toNat value), []) := by
    rw [← List.append_nil value, takeField_eq hvalue, List.append_nil]
  unfold decode
  rw [if_neg (Nat.not_le.2 hword), hwalk]
  simp only [Option.bind_eq_bind, Option.bind_some, takeField_eq hregister, takeField_eq hflags,
    takeField_eq hpadding, hlast]
  rfl

/-- Decoding the word of an instruction gives back its operands, and its flags as far as the format
has letters for them. -/
theorem decode_encode_of_mem (htree : ofFormats formats = .ok tree) (hmem : format ∈ formats)
    (hcompatible : format.IsCompatible) {register value : UInt16} {flags : FlagSet}
    (h : format.encode register flags value = .ok word) :
    ∃ d, tree.decode word = some d ∧ d.op = format.op ∧ d.register = register ∧
      d.value = value ∧ d.padding.toNat = Bits.toNat (digitBits format.padding) ∧ d.raw = word ∧
      d.flagSet = flags.inter (.ofLetters format.flags) := by
  have hplaceable := ((exists_ofFormats_iff formats).1 ⟨tree, htree⟩).1 format hmem
  have hsize := hcompatible.isWordSized hplaceable
  obtain ⟨hregister, hvalue, hword, hbits⟩ := (Format.encode_eq_ok_iff hsize _ _ _ _).1 h
  have hpadding : (digitBits format.padding).length = format.padding.length := List.length_map _
  have hflags : (format.flags.map flags.hasLetter).length = format.flags.length :=
    List.length_map _
  have hcuts : format.Cuts word (Bits.ofNat format.registerWidth register.toNat)
      (format.flags.map flags.hasLetter) (digitBits format.padding)
      (Bits.ofNat format.valueWidth value.toNat) :=
    ⟨Bits.length_ofNat _ _, hflags, hpadding, Bits.length_ofNat _ _, hbits⟩
  refine ⟨_, decode_of_cuts htree hmem hcompatible hword hcuts, rfl, ?_, ?_, ?_, rfl, ?_⟩
  · rw [Bits.toNat_ofNat hregister, UInt16.ofNat_toNat]
  · rw [Bits.toNat_ofNat hvalue, UInt16.ofNat_toNat]
  · apply toNat_ofNat_toNat
    unfold Format.IsWordSized at hsize
    omega
  · have hlayout := hcompatible.flags_eq
    rw [hlayout] at hflags
    rw [Decoded.flagSet_eq]
    dsimp only
    rw [hlayout, ofNat_toNat_ofNat_toNat hflags (flags_length_le format.op),
      FlagSet.heldLetters_map_hasLetter, FlagSet.ofLetters_filter_hasLetter]

/-- Encoding what a word decodes to gives back the word, but with the padding of the format. -/
theorem encode_decode_of_leads (htree : ofFormats formats = .ok tree) (hmem : format ∈ formats)
    (hcompatible : format.IsCompatible) {d : Decoded} (h : tree.decode word = some d)
    (hleads : format.Leads word) :
    ∃ register flags padding value again,
      format.Cuts word register flags padding value ∧
      d.padding = UInt16.ofNat (Bits.toNat padding) ∧
      format.encode d.register d.flagSet d.value = .ok again ∧
      again.toNat < Bits.capacity wordBits ∧
      format.Cuts again register flags (digitBits format.padding) value := by
  have hplaceable := ((exists_ofFormats_iff formats).1 ⟨tree, htree⟩).1 format hmem
  have hsize := hcompatible.isWordSized hplaceable
  obtain ⟨register, flags, padding, value, hcuts⟩ := Format.exists_cuts hsize hleads
  obtain ⟨again, hencode, hagain, hcuts'⟩ := Format.encode_of_cuts hcompatible hsize hcuts
  have hword := (exists_walk_of_decode h).1
  have hd := Option.some.inj (h.symm.trans (decode_of_cuts htree hmem hcompatible hword hcuts))
  have hlength := hcuts.flags_length.trans (congrArg List.length hcompatible.flags_eq)
  have hflags : d.flagSet = .ofLetters (FlagSet.heldLetters format.flags flags) := by
    rw [hd, Decoded.flagSet_eq]
    dsimp only
    rw [ofNat_toNat_ofNat_toNat hlength (flags_length_le format.op), hcompatible.flags_eq]
  refine ⟨register, flags, padding, value, again, hcuts, by rw [hd], ?_, hagain, hcuts'⟩
  rw [hflags, hd]
  exact hencode

end

end CodeTree

/-! ## The standard table -/

theorem decode_encode {op : MachineOp} {register value : UInt16} {flags : FlagSet} {word : Word}
    (h : op.format.encode register flags value = .ok word) :
    ∃ d, decode word = some d ∧ d.op = op ∧ d.register = register ∧ d.value = value ∧
      d.flagSet = flags.inter (.ofLetters op.format.flags) := by
  obtain ⟨d, hd, hop, hregister, hvalue, -, -, hflags⟩ := CodeTree.decode_encode_of_mem
    CodeTree.ofFormats_standard (Format.mem_standard op) (Format.isCompatible_format op) h
  exact ⟨d, hd, hop.trans (Format.op_format op), hregister, hvalue, hflags⟩

theorem Bits.eq_replicate_of_toNat_eq_zero {bits : List Bool} (h : Bits.toNat bits = 0) :
    bits = List.replicate bits.length false := by
  induction bits with
  | nil => rfl
  | cons bit rest ih =>
    rw [Bits.toNat_cons] at h
    have hcapacity := Bits.capacity_pos rest.length
    obtain ⟨hbit, hrest⟩ := Nat.add_eq_zero_iff.1 h
    have hfalse : bit = false := by
      cases bit
      · rfl
      · simp at hbit
        omega
    rw [hfalse, List.length_cons, List.replicate_succ, ← ih hrest]

/-- A word without padding bits is the word of the instruction it decodes to. -/
theorem encode_decode {word : Word} {d : Decoded} (h : decode word = some d)
    (hzero : d.padding = 0) : d.op.format.encode d.register d.flagSet d.value = .ok word := by
  obtain ⟨hword, rest, hwalk⟩ := CodeTree.exists_walk_of_decode h
  have hleads : d.op.format.Leads word := ⟨rest, ((CodeTree.walk_standard _ _ _).1 hwalk).symm⟩
  obtain ⟨register, flags, padding, value, again, hcuts, hpadding, hencode, hagain, hcuts'⟩ :=
    CodeTree.encode_decode_of_leads CodeTree.ofFormats_standard (Format.mem_standard d.op)
      (Format.isCompatible_format d.op) h hleads
  have hsize := Format.isWordSized_format d.op
  unfold Format.IsWordSized at hsize
  have hlength := hcuts.padding_length
  have hnone : Bits.toNat padding = 0 := by
    rw [← toNat_ofNat_toNat (by omega), ← hpadding, hzero]
    rfl
  have hsame : padding = digitBits d.op.format.padding := by
    rw [Format.digitBits_padding, ← hlength]
    exact Bits.eq_replicate_of_toNat_eq_zero hnone
  have hbits : Bits.ofNat wordBits again.toNat = Bits.ofNat wordBits word.toNat := by
    rw [hcuts'.bits_eq, hcuts.bits_eq, hsame]
  have hnat : again.toNat = word.toNat := by
    rw [← Bits.toNat_ofNat hagain, hbits, Bits.toNat_ofNat hword]
  rw [hencode, UInt16.toNat_inj.1 hnat]

/-! ## The codec of a table -/

/-- Encoding and decoding are inverse over every table that has a code tree and cuts words where the
standard formats do; the standard table is one. A word that was encoded decodes to what went into
it. A word that decodes is encoded back to itself, except that the padding field then holds the
padding of the format. -/
theorem CodeTree.codec_of_compatible :
    ((∃ tree, ofFormats Format.standard = .ok tree) ∧
      ∀ format ∈ Format.standard, format.IsCompatible) ∧
    ∀ (formats : List Format) (tree : CodeTree), ofFormats formats = .ok tree →
      (∀ format ∈ formats, format.IsCompatible) →
      (∀ format ∈ formats, ∀ (register value : UInt16) (flags : FlagSet) (word : Word),
        format.encode register flags value = .ok word →
          ∃ d, tree.decode word = some d ∧ d.op = format.op ∧ d.register = register ∧
            d.value = value ∧ d.padding.toNat = Bits.toNat (digitBits format.padding) ∧
            d.raw = word ∧ d.flagSet = flags.inter (.ofLetters format.flags)) ∧
      ∀ (word : Word) (d : Decoded), tree.decode word = some d →
        (∃ format ∈ formats, format.Leads word) ∧
        ∀ format ∈ formats, format.Leads word →
          d.op = format.op ∧
          ∃ (again : Word) (front padding back : List Bool),
            format.encode d.register d.flagSet d.value = .ok again ∧
            again.toNat < 2 ^ 15 ∧
            front.length =
              format.code.length + format.registerWidth + format.flags.length ∧
            padding.length = format.padding.length ∧
            Bits.ofNat 15 word.toNat = front ++ padding ++ back ∧
            Bits.ofNat 15 again.toNat = front ++ digitBits format.padding ++ back := by
  refine ⟨⟨⟨standard, ofFormats_standard⟩, ?_⟩, fun formats tree htree hcompatible ↦ ⟨?_, ?_⟩⟩
  · intro format hmem
    obtain ⟨op, -, rfl⟩ := List.mem_map.1 hmem
    exact Format.isCompatible_format op
  · intro format hmem register value flags word h
    exact decode_encode_of_mem htree hmem (hcompatible format hmem) h
  · intro word d h
    obtain ⟨-, rest, hwalk⟩ := exists_walk_of_decode h
    refine ⟨(isSome_walk_iff htree).1 (by rw [hwalk]; rfl), fun format hmem hleads ↦ ⟨?_, ?_⟩⟩
    · have hop := walk_of_leads htree hmem hleads
      rw [hwalk] at hop
      exact Option.some.inj hop
    · obtain ⟨register, flags, padding, value, again, hcuts, -, hencode, hagain, hcuts'⟩ :=
        encode_decode_of_leads htree hmem (hcompatible format hmem) h hleads
      refine ⟨again, digitBits format.code ++ (register ++ flags), padding, value, hencode, hagain,
        ?_, hcuts.padding_length, ?_, ?_⟩
      · rw [List.length_append, List.length_append, hcuts.register_length, hcuts.flags_length,
          digitBits, List.length_map, Nat.add_assoc]
      · exact hcuts.bits_eq.trans (by simp)
      · exact hcuts'.bits_eq.trans (by simp)

/-- A return with padding of its own: its word is decoded with that padding, and a return with other
padding is encoded back with it. -/
theorem CodeTree.codec_of_compatible_padded :
    ∃ (format : Format) (tree : CodeTree) (d again : Decoded) (word : Word)
      (front padding back : List Bool),
      format = { MachineOp.ret.format with padding := "10100101".toList } ∧
      ofFormats [MachineOp.movd.format, format] = .ok tree ∧
      format.encode 0 .empty 0 = .ok 0b011100010100101 ∧
      tree.decode 0b011100010100101 = some d ∧ d.op = .ret ∧ d.padding.toNat = 165 ∧
      tree.decode 0b011100000001111 = some again ∧
      format.encode again.register again.flagSet again.value = .ok word ∧
      front.length = 7 ∧
      Bits.ofNat 15 (0b011100000001111 : Word).toNat = front ++ padding ++ back ∧
      Bits.ofNat 15 word.toNat = front ++ digitBits "10100101".toList ++ back := by
  generalize hformat : ({ MachineOp.ret.format with padding := "10100101".toList } : Format) =
    format
  have hdecode : ((ofFormats [MachineOp.movd.format, format]).toOption.bind
      (·.decode 0b011100000001111)).isSome = true := by
    rw [← hformat]
    decide +kernel
  have hencode : format.encode 0 .empty 0 = .ok 0b011100010100101 := by
    rw [← hformat]
    decide +kernel
  have hpadded : format ∈ [MachineOp.movd.format, format] := by simp
  have hcompatible : ∀ other ∈ [MachineOp.movd.format, format], other.IsCompatible := by
    have hreturn : format.IsCompatible := by
      rw [← hformat]
      exact ⟨rfl, rfl, by decide +kernel, rfl, by simp [Text.IsBits]⟩
    simpa using ⟨Format.isCompatible_format .movd, hreturn⟩
  cases htree : ofFormats [MachineOp.movd.format, format] with
  | error fault => simp [htree, Except.toOption] at hdecode
  | ok tree =>
    obtain ⟨again, hagain⟩ : ∃ again, tree.decode 0b011100000001111 = some again := by
      simpa [htree, Except.toOption, Option.isSome_iff_exists] using hdecode
    obtain ⟨hwritten, hread⟩ := codec_of_compatible.2 _ tree htree hcompatible
    obtain ⟨d, hd, hop, -, -, hpadding, -⟩ := hwritten format hpadded 0 0 .empty _ hencode
    have hleads : format.Leads 0b011100000001111 := by
      rw [← hformat, Format.Leads]
      decide +kernel
    have hnumber : Bits.toNat (digitBits "10100101".toList) = 165 := by decide +kernel
    obtain ⟨-, word, front, padding, back, hword, -, hfront, -, hbits, hbits'⟩ :=
      (hread _ again hagain).2 format hpadded hleads
    subst hformat
    rw [hnumber] at hpadding
    exact ⟨_, tree, d, again, word, front, padding, back, rfl, htree, hencode, hd, hop, hpadding,
      hagain, hword, hfront, hbits, hbits'⟩

end Sequencer
