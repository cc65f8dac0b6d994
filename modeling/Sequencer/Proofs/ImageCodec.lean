import Mathlib
import Sequencer.Image.Reader
import Sequencer.Image.Writer
import Sequencer.Proofs.Bits
import Sequencer.Proofs.Text

/-!
# Reading back what images are written with

Each word of a text image is one line, each word of a binary image is two bytes. The words are read
back in order; a text image with a word wider than 15 bits is refused, a binary one is not.
-/

namespace Sequencer

namespace PlacedWord

/-- What stands after the slashes in a line of a text image. -/
def comment (word : PlacedWord) : Text :=
  " 0x".toList ++ (Numeral.hex 4 word.address).map Char.toUpper ++ "h ".toList ++ word.label.toList

/-- A line of a text image, without its end. -/
def line (word : PlacedWord) : Text :=
  Numeral.binary 15 word.code.toNat ++ [' '] ++ '/' :: '/' :: word.comment

theorem render_eq (word : PlacedWord) : word.render = word.line ++ ['\n'] := by
  simp [render, line, comment]

/-- The label is made of word characters. -/
def IsLabelled (word : PlacedWord) : Prop := ∀ c ∈ word.label.toList, Text.isWord c = true

theorem isWord_of_mem_upper_hex {address width : ℕ} {c : Char}
    (h : c ∈ (Numeral.hex width address).map Char.toUpper) : Text.isWord c = true := by
  obtain ⟨digit, hdigit, rfl⟩ := List.mem_map.1 h
  obtain ⟨d, hd, rfl⟩ := Numeral.exists_digit_of_mem_padded (by norm_num) hdigit
  have hall : ∀ d < 16, Text.isWord d.digitChar.toUpper = true := by decide
  exact hall d hd

theorem isWord_of_mem_binary {n : ℕ} {c : Char} (h : c ∈ Numeral.binary 15 n) :
    Text.isWord c = true := Numeral.isWord_of_mem_padded (by norm_num) (by norm_num) h

/-- A mark that is no word character stands in a line only if the writer put it there. -/
theorem not_mem_line {word : PlacedWord} (hlabel : word.IsLabelled) {mark : Char}
    (hmark : Text.isWord mark = false) (hspace : mark ≠ ' ') (hslash : mark ≠ '/') :
    mark ∉ word.line := by
  have hbinary : mark ∉ Numeral.binary 15 word.code.toNat :=
    Text.not_mem_of_isWord (fun _ ↦ isWord_of_mem_binary) hmark
  have hhex : mark ∉ (Numeral.hex 4 word.address).map Char.toUpper :=
    Text.not_mem_of_isWord (fun _ ↦ isWord_of_mem_upper_hex) hmark
  have hname : mark ∉ word.label.toList := Text.not_mem_of_isWord hlabel hmark
  have hother {c : Char} (hc : Text.isWord c = true) : mark ≠ c :=
    (Text.ne_of_isWord hc hmark).symm
  have hzero : mark ≠ '0' := hother (by decide)
  have hx : mark ≠ 'x' := hother (by decide)
  have hh : mark ≠ 'h' := hother (by decide)
  rw [line, comment, show " 0x".toList = [' ', '0', 'x'] from rfl,
    show "h ".toList = ['h', ' '] from rfl]
  simp only [List.mem_append, List.mem_cons, List.not_mem_nil, hbinary, hhex, hname, hspace, hslash,
    hzero, hx, hh, or_self, not_false_eq_true]

theorem lineBody_line (word : PlacedWord) :
    Image.lineBody word.line = Numeral.binary 15 word.code.toNat := by
  have hslash : '/' ∉ Numeral.binary 15 word.code.toNat ++ [' '] := by
    have hdigits : '/' ∉ Numeral.binary 15 word.code.toNat :=
      Text.not_mem_of_isWord (fun _ ↦ isWord_of_mem_binary) (by decide)
    simpa using hdigits
  unfold Image.lineBody line
  rw [Text.splitFirstPair_append hslash]
  exact Text.trim_append_space fun c hmem ↦ Text.isBlank_of_isWord (isWord_of_mem_binary hmem)

/-- A line is read back to its word, unless the word is too wide. -/
theorem readLine_line (number : ℕ) (word : PlacedWord) :
    Image.readLine number word.line =
      if word.code.toNat < Bits.capacity wordBits then .ok (some word.code)
      else .error (.tooWide number (Numeral.binary 15 word.code.toNat)) := by
  have hread : Numeral.read 2 UInt16.size (Numeral.binary 15 word.code.toNat) =
      .ok word.code.toNat :=
    Numeral.read_padded (by norm_num) (by norm_num) word.code.toNat_lt 15
  unfold Image.readLine
  rw [lineBody_line]
  split
  · next hnil => exact absurd hnil (Numeral.padded_ne_nil _ _ _)
  · simp only [hread, UInt16.ofNat_toNat]

end PlacedWord

namespace Image

open PlacedWord

theorem lines_flatMap_render {words : List PlacedWord} (h : ∀ word ∈ words, word.IsLabelled) :
    Text.lines (words.flatMap render) = words.map line := by
  have hlines : words.flatMap render = (words.map line).flatMap fun line ↦ line ++ ['\n'] := by
    rw [List.flatMap_map]
    exact congrArg words.flatMap (funext render_eq)
  rw [hlines]
  refine Text.lines_flatMap fun text hmem ↦ ?_
  obtain ⟨word, hword, rfl⟩ := List.mem_map.1 hmem
  exact ⟨not_mem_line (h word hword) (by decide) (by decide) (by decide),
    not_mem_line (h word hword) (by decide) (by decide) (by decide)⟩

theorem mapM_readLine_ok {words : List PlacedWord}
    (h : ∀ word ∈ words, word.code.toNat < Bits.capacity wordBits) (first : ℕ) :
    ((words.map line).zipIdx first).mapM (fun entry ↦ readLine (entry.2 + 1) entry.1) =
      .ok (words.map fun word ↦ some word.code) := by
  induction words generalizing first with
  | nil => rfl
  | cons word rest ih =>
    rw [List.forall_mem_cons] at h
    rw [List.map_cons, List.zipIdx_cons, List.mapM_cons, readLine_line, if_pos h.1, ih h.2]
    rfl

theorem mapM_readLine_error {words : List PlacedWord}
    (h : ∃ word ∈ words, Bits.capacity wordBits ≤ word.code.toNat) (first : ℕ) :
    ∃ fault, ((words.map line).zipIdx first).mapM
      (fun entry ↦ readLine (entry.2 + 1) entry.1) = .error fault := by
  induction words generalizing first with
  | nil => simp at h
  | cons word rest ih =>
    rw [List.map_cons, List.zipIdx_cons, List.mapM_cons, readLine_line]
    by_cases hnarrow : word.code.toNat < Bits.capacity wordBits
    · rw [List.exists_mem_cons_iff] at h
      obtain ⟨fault, hfault⟩ := ih (h.resolve_left (by omega)) (first + 1)
      rw [if_pos hnarrow, hfault]
      exact ⟨fault, rfl⟩
    · rw [if_neg hnarrow]
      exact ⟨_, rfl⟩

theorem ofText_eq_map {words : List PlacedWord} (hlabel : ∀ word ∈ words, word.IsLabelled) :
    ofText (words.flatMap render) =
      ((words.map line).zipIdx.mapM fun entry ↦ readLine (entry.2 + 1) entry.1).map
        (List.filterMap id) := by
  unfold ofText
  rw [lines_flatMap_render hlabel]
  rfl

/-- A text image is read back to the words it was written with, as long as none is too wide. -/
theorem ofText_flatMap_render {words : List PlacedWord} (hlabel : ∀ word ∈ words, word.IsLabelled)
    (hnarrow : ∀ word ∈ words, word.code.toNat < Bits.capacity wordBits) :
    ofText (words.flatMap render) = .ok (words.map code) := by
  rw [ofText_eq_map hlabel, mapM_readLine_ok hnarrow, Except.map, List.filterMap_map]
  exact congrArg Except.ok (congrFun List.filterMap_eq_map words)

/-- A text image with a word that is too wide is refused. -/
theorem ofText_flatMap_render_error {words : List PlacedWord}
    (hlabel : ∀ word ∈ words, word.IsLabelled)
    (hwide : ∃ word ∈ words, Bits.capacity wordBits ≤ word.code.toNat) :
    ∃ fault, ofText (words.flatMap render) = .error fault := by
  obtain ⟨fault, hread⟩ := mapM_readLine_error hwide 0
  exact ⟨fault, by rw [ofText_eq_map hlabel, hread, Except.map]⟩

/-- The two bytes of a word, put together again. -/
theorem shiftLeft_or_bytes (word : Word) :
    (word >>> 8).toUInt8.toUInt16 <<< 8 ||| word.toUInt8.toUInt16 = word := by
  have hlt := word.toNat_lt
  have hhigh : word.toNat / 256 < 256 := by omega
  apply UInt16.toNat_inj.1
  rw [UInt16.toNat_or]
  have hleft : ((word >>> 8).toUInt8.toUInt16 <<< 8).toNat = (word.toNat / 256) <<< 8 := by
    simp [Nat.shiftRight_eq_div_pow, Nat.shiftLeft_eq]
    omega
  have hright : word.toUInt8.toUInt16.toNat = word.toNat % 256 := by simp
  rw [hleft, hright, ← Nat.shiftLeft_add_eq_or_of_lt (Nat.mod_lt _ (by norm_num)), Nat.shiftLeft_eq]
  omega

theorem pairs_flatMap_bytes (words : List PlacedWord) :
    pairs (words.flatMap bytes) = words.map code := by
  induction words with
  | nil => rfl
  | cons word rest ih =>
    rw [List.flatMap_cons, bytes, List.cons_append, List.cons_append, List.nil_append, pairs, ih,
      shiftLeft_or_bytes, List.map_cons]

/-- A binary image is read back to the words it was written with. -/
theorem ofBytes_flatMap_bytes (words : List PlacedWord) :
    ofBytes 0 (words.flatMap bytes) = .ok (words.map code) := by
  have hlength : (words.flatMap bytes).length = 2 * words.length := by
    induction words with
    | nil => rfl
    | cons word rest ih =>
      rw [List.flatMap_cons, List.length_append, ih, List.length_cons, bytes, List.length_cons,
        List.length_singleton]
      omega
  unfold ofBytes
  rw [if_neg (by omega), if_neg (by omega), List.drop_zero, pairs_flatMap_bytes]

end Image

end Sequencer
