import Mathlib
import Sequencer.Expression.Token
import Sequencer.Proofs.Except
import Sequencer.Proofs.Text

/-!
# What the tokens of an expression are

A number is a literal in one of three notations, a name is a dollar sign and a word, and the other
tokens are single characters. Words are as long as they can be, and blanks only separate. The rules
set no bound on numbers. The reader of tokens follows them exactly, except that it takes no number
that does not fit into 63 bits.
-/

namespace Sequencer

namespace Numeral

theorem digit?_eq_some_iff_of_le {radix d : ℕ} {c : Char} (hradix : radix ≤ 16) :
    digit? radix c = some d ↔ d < radix ∧ digit? 16 c = some d := by
  unfold digit?
  split_ifs <;> simp <;> omega

theorem digit?_of_ascii_lt {c : Char} (h : 128 ≤ c.toNat) : digit? 16 c = none := by
  have hrange (first last : Char) (hlast : last.toNat < 128) :
      ¬ (first.val ≤ c.val ∧ c.val ≤ last.val) := by
    rintro ⟨-, hle⟩
    exact absurd ((UInt32.le_iff_toNat_le.1 hle).trans_lt hlast) (Nat.not_lt.2 h)
  have hdigit : c.isDigit = false := by simpa [Char.isDigit] using hrange '0' '9' (by decide)
  have hlower : c.isLower = false := by simpa [Char.isLower] using hrange 'a' 'z' (by decide)
  have hupper : c.isUpper = false := by simpa [Char.isUpper] using hrange 'A' 'Z' (by decide)
  simp [digit?, hdigit, hlower, hupper]

theorem toNat_lt_of_toLower {c : Char} (h : c.toLower.toNat < 128) : c.toNat < 128 := by
  by_cases hupper : c.isUpper = true
  · have hle : c.toNat ≤ 'Z'.toNat := by
      simp only [Char.isUpper, decide_eq_true_eq] at hupper
      exact UInt32.le_iff_toNat_le.1 hupper.2
    exact hle.trans_lt (by decide)
  · rwa [Char.toLower_eq_of_not_isUpper hupper] at h

/-- The characters for a digit, in either case. -/
theorem digit?_eq_some_iff {radix d : ℕ} {c : Char} (hradix : radix ≤ 16) :
    digit? radix c = some d ↔ d < radix ∧ c.toLower = d.digitChar := by
  rw [digit?_eq_some_iff_of_le hradix, and_congr_right_iff]
  intro hd
  have hascii : ∀ n < 128, ∀ d < 16,
      digit? 16 (Char.ofNat n) = some d ↔ (Char.ofNat n).toLower = d.digitChar := by
    decide +kernel
  have hdigitChar : ∀ d < 16, d.digitChar.toNat < 128 := by decide
  by_cases hc : c.toNat < 128
  · have h := hascii c.toNat hc d (by omega)
    rwa [Char.ofNat_toNat] at h
  · rw [digit?_of_ascii_lt (Nat.le_of_not_lt hc)]
    refine iff_of_false (by simp) ?_
    intro h
    apply hc
    apply toNat_lt_of_toLower
    rw [h]
    exact hdigitChar d (by omega)

/-- A character stands for a digit of a radix, a letter in either case. -/
def IsDigit (radix : ℕ) (c : Char) (d : ℕ) : Prop := d < radix ∧ c.toLower = d.digitChar

/-- Digits spell a number in a radix, the highest first. -/
def Spells (radix : ℕ) (digits : Text) (n : ℕ) : Prop :=
  ∃ ds, List.Forall₂ (IsDigit radix) digits ds ∧ Nat.ofDigits radix ds.reverse = n

theorem isDigit_rightUnique {radix : ℕ} (hradix : radix ≤ 16) :
    Relator.RightUnique (IsDigit radix) := by
  intro c d e hd he
  rw [IsDigit, ← digit?_eq_some_iff hradix] at hd he
  exact Option.some.inj (hd.symm.trans he)

theorem Spells.unique {radix : ℕ} (hradix : radix ≤ 16) {digits : Text} {n m : ℕ}
    (hn : Spells radix digits n) (hm : Spells radix digits m) : n = m := by
  obtain ⟨ds, hds, rfl⟩ := hn
  obtain ⟨es, hes, rfl⟩ := hm
  rw [List.right_unique_forall₂' (isDigit_rightUnique hradix) hds hes]

theorem spells_lower {radix : ℕ} {digits : Text} {n : ℕ} :
    Spells radix (Text.lower digits) n ↔ Spells radix digits n := by
  have hlower : (fun c d ↦ IsDigit radix c.toLower d) = IsDigit radix := by
    funext c d
    simp [IsDigit]
  simp only [Spells, Text.lower, List.forall₂_map_left_iff, hlower]

theorem le_foldl {radix : ℕ} (hradix : 0 < radix) (ds : List ℕ) (value : ℕ) :
    value ≤ ds.foldl (fun value d ↦ d + radix * value) value := by
  induction ds generalizing value with
  | nil => exact le_rfl
  | cons d rest ih =>
    calc
      value ≤ radix * value := Nat.le_mul_of_pos_left value hradix
      _ ≤ d + radix * value := Nat.le_add_left _ _
      _ ≤ _ := ih (d + radix * value)

/-- Checking the bound after each digit comes to checking the number, since digits never make it
smaller. -/
theorem readDigits_eq_ok_iff {radix bound value n : ℕ} (hpos : 0 < radix) (hradix : radix ≤ 16)
    (hvalue : value < bound) {digits : Text} :
    readDigits radix bound value digits = .ok n ↔
      (∃ ds, List.Forall₂ (IsDigit radix) digits ds ∧
        ds.foldl (fun value d ↦ d + radix * value) value = n) ∧ n < bound := by
  induction digits generalizing value with
  | nil =>
    simp only [readDigits, Except.ok.injEq, List.forall₂_nil_left_iff, exists_eq_left,
      List.foldl_nil, iff_self_and]
    rintro rfl
    exact hvalue
  | cons c rest ih =>
    simp only [List.forall₂_cons_left_iff, readDigits]
    split
    · next hnone =>
      refine iff_of_false (by simp) ?_
      rintro ⟨⟨-, ⟨d, ds, hd, -, rfl⟩, -⟩, -⟩
      rw [IsDigit, ← digit?_eq_some_iff hradix, hnone] at hd
      cases hd
    · next d hsome =>
      have hd : IsDigit radix c d := (digit?_eq_some_iff hradix).1 hsome
      have hunique (e : ℕ) (he : IsDigit radix c e) : e = d := isDigit_rightUnique hradix he hd
      split
      · next hlt =>
        rw [ih hlt, Nat.add_comm]
        constructor
        · rintro ⟨⟨ds, hds, hfold⟩, hn⟩
          exact ⟨⟨d :: ds, ⟨d, ds, hd, hds, rfl⟩, hfold⟩, hn⟩
        · rintro ⟨⟨-, ⟨e, ds, he, hds, rfl⟩, hfold⟩, hn⟩
          obtain rfl := hunique e he
          exact ⟨⟨ds, hds, hfold⟩, hn⟩
      · next hle =>
        refine iff_of_false (by simp) ?_
        rintro ⟨⟨-, ⟨e, ds, he, -, rfl⟩, rfl⟩, hn⟩
        obtain rfl := hunique e he
        have hfold := le_foldl hpos ds (e + radix * value)
        rw [List.foldl_cons] at hn
        omega

theorem read_eq_ok_iff {radix bound n : ℕ} (hpos : 0 < radix) (hradix : radix ≤ 16)
    (hbound : 0 < bound) {digits : Text} (hplus : '+' ∉ digits) :
    read radix bound digits = .ok n ↔ digits ≠ [] ∧ Spells radix digits n ∧ n < bound := by
  by_cases hne : digits = []
  · subst hne
    simp [read]
  · rw [read_eq_readDigits hne hplus, readDigits_eq_ok_iff hpos hradix hbound]
    simp [Spells, hne, Nat.ofDigits_eq_foldr, List.foldr_reverse]

end Numeral

namespace Expression

open Numeral

/-! ## Literals -/

/-- The marks that a radix other than ten is written with, after a zero and in either case. -/
def radixMarks : List (Char × ℕ) := [('x', 16), ('b', 2)]

/-- What a literal stands for, however large. -/
inductive Literal : Text → ℕ → Prop where
  | decimal {digits : Text} {n : ℕ} :
    digits ≠ [] → Spells 10 digits n → Literal digits n
  | marked {mark : Char} {radix : ℕ} {digits : Text} {n : ℕ} :
    (mark.toLower, radix) ∈ radixMarks → digits ≠ [] → Spells radix digits n →
      Literal ('0' :: mark :: digits) n

/-- A mark is no decimal digit, and it tells its radix. -/
theorem radixMarks_spec {mark : Char} {radix : ℕ} (hmark : (mark, radix) ∈ radixMarks) :
    (0 < radix ∧ radix ≤ 16) ∧ (∀ d < 10, mark ≠ d.digitChar) ∧
      ∀ other, (mark, other) ∈ radixMarks → other = radix := by
  simp only [radixMarks, List.mem_cons, Prod.mk.injEq, List.not_mem_nil, or_false] at hmark ⊢
  obtain ⟨rfl, rfl⟩ | ⟨rfl, rfl⟩ := hmark
  · exact ⟨by decide, by decide, by simp⟩
  · exact ⟨by decide, by decide, by simp⟩

theorem not_spells_marked {mark : Char} {radix : ℕ} (hmark : (mark.toLower, radix) ∈ radixMarks)
    {digits : Text} {n : ℕ} : ¬ Spells 10 ('0' :: mark :: digits) n := by
  rintro ⟨ds, hds, -⟩
  simp only [List.forall₂_cons_left_iff] at hds
  obtain ⟨-, -, -, ⟨d, -, hd, -⟩, -⟩ := hds
  exact (radixMarks_spec hmark).2.1 d hd.1 hd.2

theorem literal_marked_iff {mark : Char} {radix : ℕ} (hmark : (mark.toLower, radix) ∈ radixMarks)
    {digits : Text} {n : ℕ} :
    Literal ('0' :: mark :: digits) n ↔ digits ≠ [] ∧ Spells radix digits n := by
  constructor
  · intro h
    cases h with
    | decimal _ hspells => exact absurd hspells (not_spells_marked hmark)
    | marked hother hne hspells =>
      rw [(radixMarks_spec hmark).2.2 _ hother] at hspells
      exact ⟨hne, hspells⟩
  · rintro ⟨hne, hspells⟩
    exact .marked hmark hne hspells

theorem literal_unmarked_iff {word : Text} {n : ℕ}
    (hword : ∀ mark radix digits, (mark, radix) ∈ radixMarks →
      Text.lower word ≠ '0' :: mark :: digits) :
    Literal word n ↔ word ≠ [] ∧ Spells 10 word n := by
  constructor
  · intro h
    cases h with
    | decimal hne hspells => exact ⟨hne, hspells⟩
    | marked hmark => exact absurd rfl (hword _ _ _ hmark)
  · rintro ⟨hne, hspells⟩
    exact .decimal hne hspells

theorem Literal.unique {word : Text} {n m : ℕ} (hn : Literal word n) (hm : Literal word m) :
    n = m := by
  cases hn with
  | decimal _ hspells =>
    cases hm with
    | decimal _ hspells' => exact hspells.unique (by norm_num) hspells'
    | marked hmark => exact absurd hspells (not_spells_marked hmark)
  | marked hmark _ hspells =>
    obtain ⟨-, hspells'⟩ := (literal_marked_iff hmark).1 hm
    exact hspells.unique (radixMarks_spec hmark).1.2 hspells'

/-- A lowered character that is no letter was not changed. -/
theorem eq_of_toLower_eq {c d : Char} (h : c.toLower = d) (hd : d.isLower = false) : c = d := by
  rw [← h, Char.isLower_toLower_eq_isAlpha, Char.isAlpha, Bool.or_eq_false_iff] at hd
  rw [← h, Char.toLower_eq_of_not_isUpper (by simp [hd.1])]

/-- The text behind a lowered text that starts with a mark. -/
theorem exists_of_lower_eq {word digits : Text} {mark : Char}
    (h : Text.lower word = '0' :: mark :: digits) :
    ∃ mark' digits', word = '0' :: mark' :: digits' ∧ mark'.toLower = mark ∧
      Text.lower digits' = digits := by
  obtain ⟨zero, more, rfl, hzero, hmore⟩ := List.map_eq_cons_iff.1 h
  obtain ⟨mark', digits', rfl, hmark, hdigits⟩ := List.map_eq_cons_iff.1 hmore
  obtain rfl := eq_of_toLower_eq hzero rfl
  exact ⟨mark', digits', rfl, hmark, hdigits⟩

/-- Words have no sign in them, lowered or not. -/
theorem plus_not_mem_lower {word : Text} (hword : ∀ c ∈ word, Text.isWord c = true) :
    '+' ∉ Text.lower word := by
  intro hmem
  obtain ⟨c, hc, hlower⟩ := List.mem_map.1 hmem
  exact Text.ne_of_isWord (hword c hc) (by decide) (eq_of_toLower_eq hlower rfl)

theorem read_lower_eq_ok_iff {radix n : ℕ} (hpos : 0 < radix) (hradix : radix ≤ 16) {digits : Text}
    (hword : ∀ c ∈ digits, Text.isWord c = true) :
    Numeral.read radix numberBound (Text.lower digits) = .ok n ↔
      (digits ≠ [] ∧ Spells radix digits n) ∧ n < numberBound := by
  rw [read_eq_ok_iff hpos hradix (by decide) (plus_not_mem_lower hword), spells_lower, and_assoc]
  simp [Text.lower]

/-- A word is read as the literal that it is, below the bound. -/
theorem readNumber_eq_ok_iff {word : Text} (hword : ∀ c ∈ word, Text.isWord c = true) {n : ℕ} :
    readNumber word = .ok n ↔ Literal word n ∧ n < numberBound := by
  unfold readNumber
  rw [Except.mapError_eq_ok_iff]
  have hmarked {mark : Char} {radix : ℕ} {digits : Text} (hmark : (mark, radix) ∈ radixMarks)
      (hlower : Text.lower word = '0' :: mark :: digits) :
      Numeral.read radix numberBound digits = .ok n ↔ Literal word n ∧ n < numberBound := by
    obtain ⟨mark', digits', rfl, rfl, rfl⟩ := exists_of_lower_eq hlower
    obtain ⟨hpos, hradix⟩ := (radixMarks_spec hmark).1
    rw [literal_marked_iff hmark, read_lower_eq_ok_iff hpos hradix]
    exact fun c hc ↦ hword c (by simp [hc])
  split
  · next digits hlower => exact hmarked (by decide) hlower
  · next digits hlower => exact hmarked (by decide) hlower
  · next hhexadecimal hbinary =>
    rw [literal_unmarked_iff, read_lower_eq_ok_iff (by norm_num) (by norm_num) hword]
    intro mark radix digits hmark hlower
    simp only [radixMarks, List.mem_cons, Prod.mk.injEq, List.not_mem_nil, or_false] at hmark
    obtain ⟨rfl, -⟩ | ⟨rfl, -⟩ := hmark
    · exact hhexadecimal digits hlower
    · exact hbinary digits hlower

/-! ## Tokens -/

def symbols : List (Char × Token) :=
  [('+', .plus), ('-', .minus), ('*', .times), ('/', .divide), ('(', .opening), (')', .closing)]

/-- How a text falls into tokens. -/
inductive Lexes : Text → List Token → Prop where
  | nil : Lexes [] []
  | blank {c : Char} {rest : Text} {ts : List Token} :
    Text.isBlank c = true → Lexes rest ts → Lexes (c :: rest) ts
  | symbol {c : Char} {token : Token} {rest : Text} {ts : List Token} :
    (c, token) ∈ symbols → Lexes rest ts → Lexes (c :: rest) (token :: ts)
  | name {rest : Text} {ts : List Token} :
    rest.takeWhile Text.isWord ≠ [] → Lexes (rest.dropWhile Text.isWord) ts →
      Lexes ('$' :: rest) (.name (rest.takeWhile Text.isWord) :: ts)
  | number {c : Char} {n : ℕ} {rest : Text} {ts : List Token} :
    c.isDigit = true → Literal (c :: rest.takeWhile Text.isWord) n →
      Lexes (rest.dropWhile Text.isWord) ts → Lexes (c :: rest) (.number n :: ts)

theorem symbols_spec {c : Char} {token : Token} (h : (c, token) ∈ symbols) :
    Text.isBlank c = false ∧ Text.isWord c = false ∧ c ≠ '$' ∧
      (∀ n, token ≠ .number n) ∧ ∀ other, (c, other) ∈ symbols → other = token := by
  simp only [symbols, List.mem_cons, Prod.mk.injEq, List.not_mem_nil, or_false] at h ⊢
  obtain ⟨rfl, rfl⟩ | ⟨rfl, rfl⟩ | ⟨rfl, rfl⟩ | ⟨rfl, rfl⟩ | ⟨rfl, rfl⟩ | ⟨rfl, rfl⟩ := h <;>
    exact ⟨by decide, by decide, by decide, by simp, by simp⟩

theorem isWord_of_isDigit {c : Char} (h : c.isDigit = true) : Text.isWord c = true := by
  simp [Text.isWord, Char.isAlphanum, h]

/-- The rule that applies is told by the first character. -/
theorem Lexes.unique {source : Text} {ts ts' : List Token} (h : Lexes source ts)
    (h' : Lexes source ts') : ts = ts' := by
  induction h generalizing ts' with
  | nil => cases h' with
    | nil => rfl
  | blank hblank _ ih =>
    cases h' with
    | blank _ hrest => exact ih hrest
    | symbol hsymbol => simp [(symbols_spec hsymbol).1] at hblank
    | name => exact absurd hblank (by decide)
    | number hdigit => simp [Text.isBlank_of_isWord (isWord_of_isDigit hdigit)] at hblank
  | symbol hsymbol _ ih =>
    obtain ⟨hblank, hword, hdollar, -, hunique⟩ := symbols_spec hsymbol
    cases h' with
    | blank hblank' => simp [hblank] at hblank'
    | symbol hsymbol' hrest => rw [hunique _ hsymbol', ih hrest]
    | name => exact absurd rfl hdollar
    | number hdigit => simp [isWord_of_isDigit hdigit] at hword
  | name _ _ ih =>
    cases h' with
    | blank hblank => exact absurd hblank (by decide)
    | symbol hsymbol => exact absurd rfl (symbols_spec hsymbol).2.2.1
    | name _ hrest => rw [ih hrest]
    | number hdigit => exact absurd hdigit (by decide)
  | number hdigit hliteral _ ih =>
    have hword := isWord_of_isDigit hdigit
    cases h' with
    | blank hblank => simp [Text.isBlank_of_isWord hword] at hblank
    | symbol hsymbol => simp [(symbols_spec hsymbol).2.1] at hword
    | name => exact absurd hdigit (by decide)
    | number _ hliteral' hrest => rw [hliteral.unique hliteral', ih hrest]

/-! ## The reader of tokens -/

theorem lexemes_blank {c : Char} {rest : Text} (h : Text.isBlank c = true) :
    lexemes (c :: rest) = lexemes rest := by
  simp [lexemes, Text.runs, h]

/-- A character that no word can follow is a lexeme by itself. -/
theorem lexemes_single {c : Char} {rest : Text} (hblank : Text.isBlank c = false)
    (hword : Text.isWord c = false) (hdollar : c ≠ '$') :
    lexemes (c :: rest) = [c] :: lexemes rest := by
  change lexemes ([c] ++ rest) = _
  refine Text.runs_append (by simp) (by simpa using hblank) (by simp) ?_
  simp [hword, hdollar]

/-- The characters of a word stay together, and with a dollar sign in front. -/
theorem isChain_word {c : Char} (hstarts : (Text.isWord c || c == '$') = true) {word : Text}
    (hword : ∀ d ∈ word, Text.isWord d = true) :
    (c :: word).IsChain fun c d ↦ ((Text.isWord c || c == '$') && Text.isWord d) = true := by
  induction word generalizing c with
  | nil => exact .singleton c
  | cons d rest ih =>
    have hd := hword d List.mem_cons_self
    rw [List.isChain_cons_cons]
    exact ⟨by rw [hstarts, hd]; rfl, ih (by simp [hd]) fun e he ↦ hword e (by simp [he])⟩

/-- A word, or a dollar sign with the word that follows it, is one lexeme. -/
theorem lexemes_word {c : Char} {rest : Text} (hblank : Text.isBlank c = false)
    (hstarts : (Text.isWord c || c == '$') = true) :
    lexemes (c :: rest) =
      (c :: rest.takeWhile Text.isWord) :: lexemes (rest.dropWhile Text.isWord) := by
  have hword : ∀ d ∈ rest.takeWhile Text.isWord, Text.isWord d = true :=
    fun d hd ↦ List.mem_takeWhile_imp hd
  have hnext : ∀ d ∈ (rest.dropWhile Text.isWord).head?, Text.isWord d = false := by
    intro d hd
    have hnot := List.head?_dropWhile_not Text.isWord rest
    rwa [Option.mem_def.1 hd] at hnot
  calc
    lexemes (c :: rest) =
        lexemes ((c :: rest.takeWhile Text.isWord) ++ rest.dropWhile Text.isWord) := by
      rw [List.cons_append, List.takeWhile_append_dropWhile]
    _ = _ := by
      refine Text.runs_append (by simp) ?_ (isChain_word hstarts hword) ?_
      · rw [List.forall_mem_cons]
        exact ⟨hblank, fun d hd ↦ Text.isBlank_of_isWord (hword d hd)⟩
      · intro c _ d hd
        rw [hnext d hd, Bool.and_false]

/-- The first lexeme gives the first token. -/
theorem tokens_eq_ok_iff_of_lexemes {source word rest : Text} {ts : List Token}
    (h : lexemes source = word :: lexemes rest) :
    tokens source = .ok ts ↔
      ∃ token more, Token.ofLexeme word = .ok token ∧ tokens rest = .ok more ∧
        ts = token :: more := by
  simp only [tokens, h, List.mapM_cons, Except.bind_eq_ok_iff, pure, Except.pure, Except.ok.injEq]
  constructor
  · rintro ⟨token, htoken, more, hmore, rfl⟩
    exact ⟨token, more, htoken, hmore, rfl⟩
  · rintro ⟨token, more, htoken, hmore, rfl⟩
    exact ⟨token, htoken, more, hmore, rfl⟩

theorem ofLexeme_symbol {c : Char} {token : Token} (h : (c, token) ∈ symbols) :
    Token.ofLexeme [c] = .ok token := by
  simp only [symbols, List.mem_cons, Prod.mk.injEq, List.not_mem_nil, or_false] at h
  obtain ⟨rfl, rfl⟩ | ⟨rfl, rfl⟩ | ⟨rfl, rfl⟩ | ⟨rfl, rfl⟩ | ⟨rfl, rfl⟩ | ⟨rfl, rfl⟩ := h <;> rfl

theorem ofLexeme_name {word : Text} (h : word ≠ []) :
    Token.ofLexeme ('$' :: word) = .ok (.name word) := by
  obtain ⟨c, rest, rfl⟩ := List.exists_cons_of_ne_nil h
  rfl

theorem ofLexeme_number {c : Char} {word : Text} (h : c.isDigit = true) :
    Token.ofLexeme (c :: word) = (readNumber (c :: word)).map .number := by
  unfold Token.ofLexeme
  split
  case h_8 heq =>
    obtain ⟨rfl, rfl⟩ := List.cons.inj heq
    exact if_pos h
  case h_9 heq => cases heq
  all_goals
    next heq =>
    obtain ⟨rfl, -⟩ := List.cons.inj heq
    exact absurd h (by decide)

/-- There are no other tokens. -/
theorem of_ofLexeme_eq_ok {c : Char} {word : Text} {token : Token}
    (h : Token.ofLexeme (c :: word) = .ok token) :
    (word = [] ∧ (c, token) ∈ symbols) ∨ (c = '$' ∧ word ≠ []) ∨ c.isDigit = true := by
  unfold Token.ofLexeme at h
  split at h
  case h_7 heq =>
    obtain ⟨rfl, rfl⟩ := List.cons.inj heq
    exact .inr (.inl ⟨rfl, List.cons_ne_nil _ _⟩)
  case h_8 heq =>
    obtain ⟨rfl, rfl⟩ := List.cons.inj heq
    by_cases hdigit : c.isDigit = true
    · exact .inr (.inr hdigit)
    · rw [if_neg hdigit] at h
      cases h
  case h_9 heq => cases heq
  all_goals
    next heq =>
    obtain ⟨rfl, rfl⟩ := List.cons.inj heq
    obtain rfl := Except.ok.inj h
    exact .inl ⟨rfl, by decide⟩

theorem ofLexeme_digit_eq_ok_iff {c : Char} {rest : Text} {token : Token}
    (hdigit : c.isDigit = true) :
    Token.ofLexeme (c :: rest.takeWhile Text.isWord) = .ok token ↔
      ∃ n, (Literal (c :: rest.takeWhile Text.isWord) n ∧ n < numberBound) ∧ .number n = token := by
  have hword : ∀ d ∈ c :: rest.takeWhile Text.isWord, Text.isWord d = true := by
    rw [List.forall_mem_cons]
    exact ⟨isWord_of_isDigit hdigit, fun d hd ↦ List.mem_takeWhile_imp hd⟩
  simp only [ofLexeme_number hdigit, Except.map_eq_ok_iff, readNumber_eq_ok_iff hword]

theorem tokens_of_lexes {source : Text} {ts : List Token} (h : Lexes source ts)
    (hbound : ∀ n, .number n ∈ ts → n < numberBound) : tokens source = .ok ts := by
  induction h with
  | nil => rfl
  | blank hblank _ ih =>
    rw [tokens, lexemes_blank hblank]
    exact ih hbound
  | symbol hsymbol _ ih =>
    obtain ⟨hblank, hword, hdollar, -⟩ := symbols_spec hsymbol
    rw [tokens_eq_ok_iff_of_lexemes (lexemes_single hblank hword hdollar)]
    exact ⟨_, _, ofLexeme_symbol hsymbol, ih fun n hn ↦ hbound n (.tail _ hn), rfl⟩
  | name hne _ ih =>
    rw [tokens_eq_ok_iff_of_lexemes (lexemes_word (by decide) (by decide))]
    exact ⟨_, _, ofLexeme_name hne, ih fun n hn ↦ hbound n (.tail _ hn), rfl⟩
  | number hdigit hliteral _ ih =>
    have hword := isWord_of_isDigit hdigit
    have hlexeme := (ofLexeme_digit_eq_ok_iff hdigit).2 ⟨_, ⟨hliteral, hbound _ (.head _)⟩, rfl⟩
    rw [tokens_eq_ok_iff_of_lexemes
      (lexemes_word (Text.isBlank_of_isWord hword) (by simp [hword]))]
    exact ⟨_, _, hlexeme, ih fun n hn ↦ hbound n (.tail _ hn), rfl⟩

/-- The first token of a text that was read, with the rule for it. -/
theorem exists_first_token {c : Char} {rest : Text} {ts : List Token}
    (hblank : Text.isBlank c = false) (h : tokens (c :: rest) = .ok ts) :
    ∃ token more left, ts = token :: more ∧ tokens left = .ok more ∧ left.length ≤ rest.length ∧
      (∀ n, token = .number n → n < numberBound) ∧
      (Lexes left more → Lexes (c :: rest) (token :: more)) := by
  by_cases hstarts : (Text.isWord c || c == '$') = true
  · rw [tokens_eq_ok_iff_of_lexemes (lexemes_word hblank hstarts)] at h
    obtain ⟨token, more, htoken, hmore, rfl⟩ := h
    have hle := List.length_dropWhile_le Text.isWord rest
    obtain ⟨-, hsymbol⟩ | ⟨rfl, hne⟩ | hdigit := of_ofLexeme_eq_ok htoken
    · obtain ⟨-, hword, hdollar, -⟩ := symbols_spec hsymbol
      simp [hword, hdollar] at hstarts
    · obtain rfl := Except.ok.inj ((ofLexeme_name hne).symm.trans htoken)
      exact ⟨_, more, _, rfl, hmore, hle, by simp, .name hne⟩
    · obtain ⟨n, ⟨hliteral, hn⟩, rfl⟩ := (ofLexeme_digit_eq_ok_iff hdigit).1 htoken
      exact ⟨_, more, _, rfl, hmore, hle, by simpa using hn, .number hdigit hliteral⟩
  · obtain ⟨hword, hdollar⟩ : Text.isWord c = false ∧ c ≠ '$' := by simpa using hstarts
    rw [tokens_eq_ok_iff_of_lexemes (lexemes_single hblank hword hdollar)] at h
    obtain ⟨token, more, htoken, hmore, rfl⟩ := h
    obtain ⟨-, hsymbol⟩ | ⟨rfl, -⟩ | hdigit := of_ofLexeme_eq_ok htoken
    · obtain ⟨-, -, -, hnumber, -⟩ := symbols_spec hsymbol
      exact ⟨token, more, rest, rfl, hmore, le_rfl, fun n hn ↦ absurd hn (hnumber n),
        .symbol hsymbol⟩
    · exact absurd rfl hdollar
    · simp [isWord_of_isDigit hdigit] at hword

theorem lexes_of_tokens {source : Text} {ts : List Token} (h : tokens source = .ok ts) :
    Lexes source ts ∧ ∀ n, .number n ∈ ts → n < numberBound := by
  -- a word is taken off as a whole, so the induction is on the length of what is left
  induction hlength : source.length using Nat.strong_induction_on generalizing source ts with
  | _ length ih =>
    subst hlength
    cases source with
    | nil =>
      obtain rfl : [] = ts := Except.ok.inj h
      exact ⟨.nil, by simp⟩
    | cons c rest =>
      by_cases hblank : Text.isBlank c = true
      · rw [tokens, lexemes_blank hblank] at h
        obtain ⟨hlexes, hbound⟩ := ih rest.length (by simp) h rfl
        exact ⟨.blank hblank hlexes, hbound⟩
      · rw [Bool.not_eq_true] at hblank
        obtain ⟨token, more, left, rfl, hmore, hle, hnumber, hrule⟩ := exists_first_token hblank h
        obtain ⟨hlexes, hbound⟩ := ih left.length (Nat.lt_succ_of_le hle) hmore rfl
        refine ⟨hrule hlexes, ?_⟩
        intro n hn
        rcases List.mem_cons.1 hn with hfirst | hrest
        · exact hnumber n hfirst.symm
        · exact hbound n hrest

/-- The tokens of a text are those that it falls into, as long as its numbers are below the
bound. -/
theorem tokens_eq_ok_iff {source : Text} {ts : List Token} :
    tokens source = .ok ts ↔ Lexes source ts ∧ ∀ n, .number n ∈ ts → n < numberBound :=
  ⟨lexes_of_tokens, fun h ↦ tokens_of_lexes h.1 h.2⟩

end Expression

end Sequencer
