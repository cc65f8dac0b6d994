import Mathlib
import Sequencer.Proofs.Evaluation
import Sequencer.Proofs.Respacing

/-!
# Expressions as operands

The expression of a definition is read as it stands, with blanks wherever its author put them. An
operand is cut out of its line at commas and blanks, after blanks beside operators were dropped. The
grammar lets no two operands stand beside each other, so there is an operator at every blank of an
expression: all blanks are dropped, nothing that was apart runs together, and the operand has the
value that the expression has.
-/

namespace Sequencer

namespace Text

/-- A text without its blanks. -/
def solid (t : Text) : Text := t.filter fun c ↦ !isBlank c

theorem solid_cons_of_blank {c : Char} (h : isBlank c = true) (rest : Text) :
    solid (c :: rest) = solid rest := by
  simp [solid, h]

theorem solid_cons {c : Char} (h : isBlank c = false) (rest : Text) :
    solid (c :: rest) = c :: solid rest := by
  simp [solid, h]

/-- The word that a text begins with stays whole. -/
theorem solid_word (t : Text) :
    solid t = t.takeWhile isWord ++ solid (t.dropWhile isWord) := by
  have hword : ∀ c ∈ t.takeWhile isWord, (!isBlank c) = true := by
    intro c hc
    simp [isBlank_of_isWord (List.mem_takeWhile_imp hc)]
  conv_lhs => rw [← List.takeWhile_append_dropWhile (p := isWord) (l := t)]
  rw [solid, List.filter_append, List.filter_eq_self.2 hword, solid]

end Text

namespace Expression

/-! ## Neighbouring tokens -/

/-- The token can begin an operand that has no sign. -/
def Token.startsOperand : Token → Bool
  | number _ | name _ | opening => true
  | plus | minus | times | divide | closing => false

/-- The token can end an operand. -/
def Token.endsOperand : Token → Bool
  | number _ | name _ | closing => true
  | plus | minus | times | divide | opening => false

/-- An operand does not end where another one begins. -/
def Token.MayPrecede (left right : Token) : Prop :=
  left.endsOperand = false ∨ right.startsOperand = false

/-- An operator may stand between any tokens. -/
theorem isChain_around {ls rs : List Token} {operator : Token}
    (hstarts : operator.startsOperand = false) (hends : operator.endsOperand = false)
    (hl : ls.IsChain Token.MayPrecede) (hr : rs.IsChain Token.MayPrecede) :
    (ls ++ operator :: rs).IsChain Token.MayPrecede := by
  rw [List.isChain_append, List.isChain_cons]
  refine ⟨hl, ⟨fun right _ ↦ .inl hends, hr⟩, fun left _ right hright ↦ ?_⟩
  rw [← Option.some.inj hright]
  exact .inr hstarts

theorem Derives.isChain {level : Level} {ts : List Token} {tree : Tree}
    (h : Derives level ts tree) : ts.IsChain Token.MayPrecede := by
  induction h with
  | term _ ih | factor _ ih | atom _ ih => exact ih
  | sum operator _ _ ihl ihr =>
    cases operator <;> exact isChain_around rfl rfl ihl ihr
  | product operator _ _ ihl ihr =>
    cases operator <;> exact isChain_around rfl rfl ihl ihr
  | minus _ ih | plus _ ih => exact isChain_around rfl rfl .nil ih
  | number n => exact .singleton _
  | name text => exact .singleton _
  | parentheses _ ih =>
    rw [List.isChain_cons, List.isChain_append]
    refine ⟨fun right _ ↦ .inl rfl, ih, .singleton _, fun left _ right hright ↦ ?_⟩
    rw [← Option.some.inj hright]
    exact .inr rfl

/-- What derives begins with a sign or with an operand. -/
theorem Derives.exists_first {level : Level} {ts : List Token} {tree : Tree}
    (h : Derives level ts tree) :
    ∃ first rest, ts = first :: rest ∧
      (first = .plus ∨ first = .minus ∨ first.startsOperand = true) := by
  induction h with
  | term _ ih | factor _ ih | atom _ ih => exact ih
  | sum operator _ _ ihl _ | product operator _ _ ihl _ =>
    obtain ⟨first, rest, rfl, hfirst⟩ := ihl
    exact ⟨first, _, rfl, hfirst⟩
  | minus _ _ => exact ⟨_, _, rfl, .inr (.inl rfl)⟩
  | plus _ _ => exact ⟨_, _, rfl, .inl rfl⟩
  | number n => exact ⟨_, _, rfl, .inr (.inr rfl)⟩
  | name text => exact ⟨_, _, rfl, .inr (.inr rfl)⟩
  | parentheses _ _ => exact ⟨_, _, rfl, .inr (.inr rfl)⟩

/-- No operand comes next. -/
def NoOperandNext (ts : List Token) : Prop := ∀ token ∈ ts.head?, token.startsOperand = false

theorem noOperandNext_of_isChain {token : Token} {ts : List Token}
    (h : (token :: ts).IsChain Token.MayPrecede) (hends : token.endsOperand = true) :
    NoOperandNext ts := by
  intro next hnext
  rcases (List.isChain_cons.1 h).1 next hnext with hfalse | hstarts
  · rw [hends] at hfalse
    cases hfalse
  · exact hstarts

/-! ## Blanks dropped from an expression -/

variable {source : Text} {ts : List Token}

theorem Lexes.isWord_head_solid (h : Lexes source ts) (hnext : NoOperandNext ts) :
    ∀ c ∈ (Text.solid source).head?, Text.isWord c = false := by
  induction h with
  | nil => simp [Text.solid]
  | blank hblank _ ih =>
    rw [Text.solid_cons_of_blank hblank]
    exact ih hnext
  | symbol hsymbol _ _ =>
    obtain ⟨hblank, hword, -⟩ := symbols_spec hsymbol
    rw [Text.solid_cons hblank]
    simpa using hword
  | name _ _ _ => cases hnext _ rfl
  | number _ _ _ _ => cases hnext _ rfl

/-- A word that no operand follows still ends where it did. -/
theorem Lexes.span_solid {rest : Text} (h : Lexes (rest.dropWhile Text.isWord) ts)
    (hnext : NoOperandNext ts) :
    (Text.solid rest).takeWhile Text.isWord = rest.takeWhile Text.isWord ∧
      (Text.solid rest).dropWhile Text.isWord = Text.solid (rest.dropWhile Text.isWord) := by
  rw [Text.solid_word rest]
  exact Text.span_append _ _ (fun c hc ↦ List.mem_takeWhile_imp hc) (h.isWord_head_solid hnext)

/-- Without its blanks, a text whose tokens may stand beside each other has the same tokens. -/
theorem Lexes.solid (h : Lexes source ts) (hchain : ts.IsChain Token.MayPrecede) :
    Lexes (Text.solid source) ts := by
  induction h with
  | nil => exact .nil
  | blank hblank _ ih =>
    rw [Text.solid_cons_of_blank hblank]
    exact ih hchain
  | symbol hsymbol _ ih =>
    rw [Text.solid_cons (symbols_spec hsymbol).1]
    exact .symbol hsymbol (ih hchain.tail)
  | name hne hrest ih =>
    obtain ⟨htake, hdrop⟩ := hrest.span_solid (noOperandNext_of_isChain hchain rfl)
    rw [Text.solid_cons (by decide), ← htake]
    exact .name (htake ▸ hne) (hdrop ▸ ih hchain.tail)
  | number hdigit hliteral hrest ih =>
    obtain ⟨htake, hdrop⟩ := hrest.span_solid (noOperandNext_of_isChain hchain rfl)
    rw [Text.solid_cons (Text.isBlank_of_isWord (isWord_of_isDigit hdigit))]
    exact .number hdigit (htake ▸ hliteral) (hdrop ▸ ih hchain.tail)

/-- Blanks have no part in the value of an expression that has one. -/
theorem evaluate_solid {lookup : Text → Option ℤ} {value : ℤ}
    (h : evaluate lookup source = .ok value) : evaluate lookup (Text.solid source) = .ok value := by
  obtain ⟨ts, htokens, hvalue⟩ := evaluate_eq_ok_iff_value.1 h
  obtain ⟨tree, hderives, -⟩ := value_eq_ok_iff.1 hvalue
  obtain ⟨hlexes, hbound⟩ := tokens_eq_ok_iff.1 htokens
  refine evaluate_eq_ok_iff_value.2 ⟨ts, tokens_eq_ok_iff.2 ⟨?_, hbound⟩, hvalue⟩
  exact hlexes.solid hderives.isChain

/-- Expressions are made of blanks, symbols, dollar signs and words. -/
theorem Lexes.not_mem (h : Lexes source ts) {mark : Char} (hblank : Text.isBlank mark = false)
    (hword : Text.isWord mark = false) (hother : mark ∉ '$' :: symbols.map Prod.fst) :
    mark ∉ source := by
  rw [List.mem_cons, not_or] at hother
  have hspan {rest : Text} (hrest : mark ∉ rest.dropWhile Text.isWord) : mark ∉ rest := by
    rw [← List.takeWhile_append_dropWhile (p := Text.isWord) (l := rest), List.mem_append, not_or]
    exact ⟨Text.not_mem_of_isWord (fun c hc ↦ List.mem_takeWhile_imp hc) hword, hrest⟩
  induction h with
  | nil => exact List.not_mem_nil
  | blank hc _ ih =>
    refine List.not_mem_cons_of_ne_of_not_mem (fun heq ↦ ?_) ih
    rw [heq, hc] at hblank
    cases hblank
  | symbol hsymbol _ ih =>
    refine List.not_mem_cons_of_ne_of_not_mem (fun heq ↦ ?_) ih
    exact hother.2 (heq ▸ List.mem_map_of_mem hsymbol)
  | name _ _ ih => exact List.not_mem_cons_of_ne_of_not_mem hother.1 (hspan ih)
  | number hdigit _ _ ih =>
    refine List.not_mem_cons_of_ne_of_not_mem (fun heq ↦ ?_) (hspan ih)
    rw [heq, isWord_of_isDigit hdigit] at hword
    cases hword

/-- The first token shows in the first character that is no blank. -/
theorem Lexes.exists_first {token : Token} (h : Lexes source (token :: ts)) :
    ∃ c, (Text.trimStart source).head? = some c ∧
      ((c, token) ∈ symbols ∨ token.startsOperand = true ∧ (c = '$' ∨ Text.isWord c = true)) := by
  generalize hts : token :: ts = all at h
  induction h with
  | nil => cases hts
  | blank hblank _ ih =>
    rw [Text.trimStart, List.dropWhile_cons_of_pos hblank]
    exact ih hts
  | symbol hsymbol _ _ =>
    obtain ⟨rfl, rfl⟩ := List.cons.inj hts
    refine ⟨_, ?_, .inl hsymbol⟩
    rw [Text.trimStart_of_head (by simpa using (symbols_spec hsymbol).1)]
    rfl
  | name _ _ _ =>
    obtain ⟨rfl, rfl⟩ := List.cons.inj hts
    exact ⟨'$', rfl, .inr ⟨rfl, .inl rfl⟩⟩
  | @number c _ rest _ hdigit _ _ _ =>
    obtain ⟨rfl, rfl⟩ := List.cons.inj hts
    have hword := isWord_of_isDigit hdigit
    refine ⟨c, ?_, .inr ⟨rfl, .inr hword⟩⟩
    rw [Text.trimStart_of_head (by simpa using Text.isBlank_of_isWord hword)]
    rfl

/-! ## Normal form -/

open Source

/-- What was written last joins with what comes next, whatever blanks there are between them. -/
def Joins (last : Option Char) (ts : List Token) : Prop :=
  ∀ c ∈ last, c ∈ joinAfter ∨ NoOperandNext ts

theorem NoOperandNext.joins (h : NoOperandNext ts) (last : Option Char) : Joins last ts :=
  fun _ _ ↦ .inr h

theorem joins_none (ts : List Token) : Joins none ts := by
  rintro _ ⟨⟩

theorem mem_joins_of_mem_symbols {c : Char} {token : Token} (h : (c, token) ∈ symbols) :
    (c ∈ joinAfter ∨ token.endsOperand = true) ∧
      (token.startsOperand = false → c ∈ joinBefore) := by
  have hall : ∀ symbol ∈ symbols, (symbol.1 ∈ joinAfter ∨ symbol.2.endsOperand = true) ∧
      (symbol.2.startsOperand = false → symbol.1 ∈ joinBefore) := by decide
  exact hall (c, token) h

/-- Of the characters that an expression can begin with, only signs swallow blanks before them. -/
theorem sign_or_not_mem_joinBefore {c : Char} {token : Token}
    (hfirst : token = .plus ∨ token = .minus ∨ token.startsOperand = true)
    (hshows : (c, token) ∈ symbols ∨
      token.startsOperand = true ∧ (c = '$' ∨ Text.isWord c = true)) :
    (c = '+' ∨ c = '-') ∨ c ∉ joinBefore := by
  have hall : ∀ symbol ∈ symbols,
      (symbol.2 = .plus ∨ symbol.2 = .minus ∨ symbol.2.startsOperand = true) →
        (symbol.1 = '+' ∨ symbol.1 = '-') ∨ symbol.1 ∉ joinBefore := by decide
  rcases hshows with hsymbol | ⟨-, rfl | hword⟩
  · exact hall (c, token) hsymbol hfirst
  · exact .inr (by decide)
  · exact .inr (not_mem_joins (.inl hword) (Text.ne_of_isWord hword (by decide))).2

theorem joins_symbol {c : Char} {token : Token} (h : (c, token) ∈ symbols)
    (hchain : (token :: ts).IsChain Token.MayPrecede) : Joins (some c) ts := by
  rintro _ ⟨⟩
  exact (mem_joins_of_mem_symbols h).1.imp_right (noOperandNext_of_isChain hchain)

/-- The first character of a token that joins is written without a gap. -/
theorem normalizeFrom_token {c : Char} {token : Token} {last : Option Char}
    (hblank : Text.isBlank c = false) (hbefore : token.startsOperand = false → c ∈ joinBefore)
    (hjoins : Joins last (token :: ts)) (gap : Bool) (rest : Text) :
    normalizeFrom last gap (c :: rest) = c :: normalizeFrom (some c) false rest := by
  have hgap : last.any (keepsGap · c) = false := by
    cases last with
    | none => rfl
    | some before =>
      rcases hjoins before rfl with hafter | hnext
      · simp [keepsGap, hafter]
      · simp [keepsGap, hbefore (hnext token rfl)]
  rw [normalizeFrom, hblank, hgap, Bool.and_false]
  simp

theorem exists_normalizeFrom_word (last : Option Char) (t : Text) :
    ∃ last', normalizeFrom last false t =
      t.takeWhile Text.isWord ++ normalizeFrom last' false (t.dropWhile Text.isWord) := by
  induction t generalizing last with
  | nil => exact ⟨last, rfl⟩
  | cons c rest ih =>
    by_cases hword : Text.isWord c = true
    · obtain ⟨last', hrest⟩ := ih (some c)
      refine ⟨last', ?_⟩
      rw [List.takeWhile_cons_of_pos hword, List.dropWhile_cons_of_pos hword, normalizeFrom,
        Text.isBlank_of_isWord hword, hrest]
      simp
    · exact ⟨last, by simp [hword]⟩

/-- Of an expression with tokens that may stand beside each other, normalization keeps all but the
blanks. -/
theorem normalizeFrom_of_lexes (h : Lexes source ts) (hchain : ts.IsChain Token.MayPrecede)
    {last : Option Char} (gap : Bool) (hjoins : Joins last ts) :
    normalizeFrom last gap source = Text.solid source := by
  induction h generalizing last gap with
  | nil => rfl
  | blank hblank _ ih =>
    rw [normalizeFrom, if_pos hblank, Text.solid_cons_of_blank hblank]
    exact ih hchain true hjoins
  | symbol hsymbol _ ih =>
    have hblank := (symbols_spec hsymbol).1
    rw [normalizeFrom_token hblank (mem_joins_of_mem_symbols hsymbol).2 hjoins,
      Text.solid_cons hblank, ih hchain.tail false (joins_symbol hsymbol hchain)]
  | @name rest _ _ _ ih =>
    have hnext := noOperandNext_of_isChain hchain rfl
    obtain ⟨last', hword⟩ := exists_normalizeFrom_word (some '$') rest
    rw [normalizeFrom_token (by decide) (by simp [Token.startsOperand]) hjoins, hword,
      ih hchain.tail false (hnext.joins last'), Text.solid_cons (by decide), ← Text.solid_word]
  | @number c _ rest _ hdigit _ _ ih =>
    have hnext := noOperandNext_of_isChain hchain rfl
    have hblank := Text.isBlank_of_isWord (isWord_of_isDigit hdigit)
    obtain ⟨last', hword⟩ := exists_normalizeFrom_word (some c) rest
    rw [normalizeFrom_token hblank (by simp [Token.startsOperand]) hjoins, hword,
      ih hchain.tail false (hnext.joins last'), Text.solid_cons hblank, ← Text.solid_word]

end Expression

/-! ## Lines with an expression -/

theorem Text.trimEnd_cons {c : Char} (h : isBlank c = false) (rest : Text) :
    trimEnd (c :: rest) = c :: trimEnd rest := by
  unfold trimEnd
  rw [List.reverse_cons, List.dropWhile_append]
  split
  · next hempty => simp [h, List.isEmpty_iff.1 hempty]
  · simp

namespace Source

theorem normalizeFrom_append_blanks {g : Text} (h : ∀ c ∈ g, Text.isBlank c = true)
    (last : Option Char) (gap : Bool) (t : Text) :
    normalizeFrom last gap (t ++ g) = normalizeFrom last gap t := by
  induction t generalizing last gap with
  | nil =>
    induction g generalizing gap with
    | nil => rfl
    | cons c g ih =>
      rw [List.forall_mem_cons] at h
      exact (if_pos h.1).trans (ih h.2 true)
  | cons c rest ih => rw [List.cons_append, normalizeFrom, normalizeFrom, ih, ih]

/-- Blanks at the end of a text do not show in its normal form. -/
theorem normalizeFrom_trimEnd (last : Option Char) (gap : Bool) (t : Text) :
    normalizeFrom last gap (Text.trimEnd t) = normalizeFrom last gap t := by
  have hsplit : Text.trimEnd t ++ (t.reverse.takeWhile Text.isBlank).reverse = t := by
    rw [Text.trimEnd, ← List.reverse_append, List.takeWhile_append_dropWhile, List.reverse_reverse]
  have hblank : ∀ c ∈ (t.reverse.takeWhile Text.isBlank).reverse, Text.isBlank c = true :=
    fun c hc ↦ List.mem_takeWhile_imp (List.mem_reverse.1 hc)
  conv_rhs => rw [← hsplit]
  exact (normalizeFrom_append_blanks hblank last gap _).symm

/-- A gap that is kept becomes one space. -/
theorem normalizeFrom_of_keepsGap {before c : Char} {t : Text}
    (hfirst : (Text.trimStart t).head? = some c) (hkeeps : keepsGap before c = true) :
    normalizeFrom (some before) true t = ' ' :: normalizeFrom none true t := by
  induction t with
  | nil => cases hfirst
  | cons d rest ih =>
    by_cases hblank : Text.isBlank d = true
    · rw [Text.trimStart, List.dropWhile_cons_of_pos hblank] at hfirst
      rw [normalizeFrom, if_pos hblank, normalizeFrom, if_pos hblank]
      exact ih hfirst
    · rw [Text.trimStart, List.dropWhile_cons_of_neg hblank] at hfirst
      obtain rfl := Option.some.inj hfirst
      simp [normalizeFrom, hblank, hkeeps]

/-- A word ends at a separator. -/
theorem tokens_word {word : Text} (hne : word ≠ []) (hword : word.all Text.isWord = true) {c : Char}
    (hc : isSeparator c = true) (rest : Text) :
    tokens (word ++ c :: rest) = word :: tokens rest := by
  have hsolid : ∀ d ∈ word, isSeparator d = false :=
    fun d hd ↦ isSeparator_of_isWord (List.all_eq_true.1 hword d hd)
  rw [tokens_append hne hsolid (by simp [hc]), tokens_cons_of_separator hc]

end Source

open Source

/-- An expression without its blanks is one token of a line. -/
theorem Expression.Lexes.tokens_solid {source : Text} {token : Token} {ts : List Token}
    (h : Lexes source (token :: ts)) (hchain : (token :: ts).IsChain Token.MayPrecede) :
    Source.tokens (Text.solid source) = [Text.solid source] := by
  have hsolid := h.solid hchain
  have hne : Text.solid source ≠ [] := by
    intro hnil
    rw [hnil] at hsolid
    cases hsolid
  have hcomma : ',' ∉ source := h.not_mem (by decide) (by decide) (by decide)
  have hword : ∀ c ∈ Text.solid source, isSeparator c = false := by
    intro c hc
    obtain ⟨hmem, hblank⟩ := List.mem_filter.1 hc
    have hne : c ≠ ',' := fun heq ↦ hcomma (heq ▸ hmem)
    simpa [isSeparator, hne] using hblank
  have htokens : Source.tokens (Text.solid source ++ []) = Text.solid source :: Source.tokens [] :=
    tokens_append hne hword (by simp)
  rw [List.append_nil] at htokens
  exact htokens

/-- What begins like a mnemonic holds neither a label nor a definition. -/
theorem Statement.ofText_append {front source token : Text} {operands : List Text}
    (hfront : front.head?.any Text.isWord = true) (hmark : '#' ∉ front) (hmark' : '#' ∉ source)
    (htokens : tokens (normalize (front ++ source)) = token :: operands)
    (hlong : token.length ≠ 1) :
    ofText (front ++ source) = ⟨none, .instruction .empty (token :: operands)⟩ := by
  obtain ⟨c, rest, rfl⟩ : ∃ c rest, front = c :: rest := by
    cases front with
    | nil => cases hfront
    | cons c rest => exact ⟨c, rest, rfl⟩
  have hword : Text.isWord c = true := hfront
  have hblank := Text.isBlank_of_isWord hword
  rw [List.cons_append] at htokens ⊢
  have hcode : code (c :: (rest ++ source)) = c :: Text.trimEnd (rest ++ source) := by
    have hhas : HasCode (c :: (rest ++ source)) (c :: (rest ++ source)) :=
      ⟨[], [], [], by simp, by simp, by simp, by simp_all, by simp⟩
    rw [hhas.code_eq, Text.trim, Text.trimStart_of_head (by simpa using hblank),
      Text.trimEnd_cons hblank]
  have hlabel : splitLabel (c :: Text.trimEnd (rest ++ source)) = none := by
    rw [splitLabel_cons, if_neg (Text.ne_of_isWord hword (by decide))]
  have hdefinition : splitDefinition (c :: Text.trimEnd (rest ++ source)) = none := by
    rw [splitDefinition_cons, if_neg (Text.ne_of_isWord hword (by decide))]
  have hnormal : normalize (c :: Text.trimEnd (rest ++ source)) =
      normalize (c :: (rest ++ source)) := by
    rw [← Text.trimEnd_cons hblank]
    exact normalizeFrom_trimEnd none false _
  simp only [ofText, hcode, hlabel, bodyOf, hdefinition, hnormal, htokens,
    splitFlags_of_length hlong]

namespace Reader

/-- A line with one instruction gives one command, which takes the flags that wait. -/
theorem read_singleton {text token : Text} {operands : List Text} {opcode : Opcode}
    (htext : Statement.ofText text = ⟨none, .instruction .empty (token :: operands)⟩)
    (hopcode : Opcode.ofToken? token = some opcode) (hlength : operands.length ≤ maxOperands)
    (reader : Reader) (number : ℕ) :
    reader.read [⟨number, text⟩] =
      ({ reader with pending := .empty, count := reader.count + 1 },
        .ok [{ flags := reader.pending, opcode, rawOperands := operands, index := reader.count,
               line := number }]) := by
  have hflags : reader.pending.union .empty = reader.pending := FlagSet.ext_contains (by simp)
  have hline : reader.line ⟨number, text⟩ =
      ({ reader with pending := .empty, count := reader.count + 1 },
        .ok (some { flags := reader.pending, opcode, rawOperands := operands,
                    index := reader.count, line := number })) := by
    simp only [Reader.line, htext, Reader.label, instruction, hopcode,
      if_neg (Nat.not_lt.2 hlength), hflags]
  unfold read
  rw [lines_cons_ok hline]
  rfl

/-- An expression that has a value, in whatever way it is spaced, is read as one operand: the
expression without its blanks, which has the same value. A mnemonic in front of it stays apart from
it unless the expression begins with a sign. -/
theorem read_expression_operand (reader : Reader) (number : ℕ) {source : Text} {value : ℤ}
    (h : reader.constants.evaluate source = .ok value) :
    reader.read [⟨number, "LD CC, ".toList ++ source⟩] =
      ({ reader with pending := .empty, count := reader.count + 1 },
        .ok [{ flags := reader.pending, opcode := .ld,
               rawOperands := ["CC".toList, Text.solid source],
               index := reader.count, line := number }]) ∧
    ((∀ c ∈ (Text.trimStart source).head?, c ≠ '+' ∧ c ≠ '-') →
      reader.read [⟨number, "WAIT ".toList ++ source⟩] =
        ({ reader with pending := .empty, count := reader.count + 1 },
          .ok [{ flags := reader.pending, opcode := .wait, rawOperands := [Text.solid source],
                 index := reader.count, line := number }])) ∧
    reader.constants.evaluate (Text.solid source) = .ok value := by
  obtain ⟨ts, htokens, hvalue⟩ := Expression.evaluate_eq_ok_iff_value.1 h
  obtain ⟨tree, hderives, -⟩ := Expression.value_eq_ok_iff.1 hvalue
  have hlexes := (Expression.tokens_eq_ok_iff.1 htokens).1
  have hchain := hderives.isChain
  have hmark : '#' ∉ source := hlexes.not_mem (by decide) (by decide) (by decide)
  obtain ⟨first, rest, rfl, hfirst⟩ := hderives.exists_first
  obtain ⟨c, hc, hshows⟩ := hlexes.exists_first
  have hoperand := hlexes.tokens_solid hchain
  refine ⟨?_, fun hsign ↦ ?_, Expression.evaluate_solid h⟩
  · have hjoins : Expression.Joins (some ',') (first :: rest) := by
      rintro _ ⟨⟩
      exact .inl (by decide)
    have hnormal : normalize ("LD CC, ".toList ++ source) =
        "LD".toList ++ ' ' :: ("CC".toList ++ ',' :: Text.solid source) :=
      congrArg ("LD CC,".toList ++ ·) (Expression.normalizeFrom_of_lexes hlexes hchain true hjoins)
    have hparts : tokens (normalize ("LD CC, ".toList ++ source)) =
        ["LD".toList, "CC".toList, Text.solid source] := by
      rw [hnormal, tokens_word (by decide) (by decide) (by decide),
        tokens_word (by decide) (by decide) (by decide), hoperand]
    have htext := Statement.ofText_append (by decide) (by decide) hmark hparts (by decide)
    exact read_singleton htext (by decide) (Nat.le_refl 2) reader number
  · -- the gap after the mnemonic is kept, for no sign comes next that would swallow it
    have hkeeps : keepsGap 'T' c = true := by
      rcases Expression.sign_or_not_mem_joinBefore hfirst hshows with hplus | hbefore
      · exact absurd hplus (not_or.2 (hsign c hc))
      · have hafter : 'T' ∉ joinAfter := by decide
        simp [keepsGap, hafter, hbefore]
    have hgap := normalizeFrom_of_keepsGap hc hkeeps
    have hnormal : normalize ("WAIT ".toList ++ source) =
        "WAIT".toList ++ ' ' :: Text.solid source := by
      rw [← Expression.normalizeFrom_of_lexes hlexes hchain true (Expression.joins_none _), ← hgap]
      rfl
    have hparts : tokens (normalize ("WAIT ".toList ++ source)) =
        ["WAIT".toList, Text.solid source] := by
      rw [hnormal, tokens_word (by decide) (by decide) (by decide), hoperand]
    have htext := Statement.ofText_append (by decide) (by decide) hmark hparts (by decide)
    exact read_singleton htext (by decide) (Nat.le_succ 1) reader number

/-- Blanks of several kinds beside every operator, in front of the expression and behind it. -/
theorem read_expression_operand_spread :
    ∃ (reader : Reader) (source solid : Text),
      source = " (\t$Base + 2 )\u2003* -  \u00a0 0x1F /\n3 ".toList ∧
      solid = "($Base+2)*-0x1F/3".toList ∧
      reader.constants.evaluate source = .ok (-62) ∧
      reader.constants.evaluate solid = .ok (-62) ∧
      (reader.read [⟨7, "LD CC, ".toList ++ source⟩]).2 = .ok
        [{ flags := { acquire := true }, opcode := .ld, rawOperands := ["CC".toList, solid],
           index := 3, line := 7 }] ∧
      (reader.read [⟨7, "WAIT ".toList ++ source⟩]).2 = .ok
        [{ flags := { acquire := true }, opcode := .wait, rawOperands := [solid],
           index := 3, line := 7 }] := by
  let reader : Reader :=
    { constants := ⟨{ entries := [("BASE".toList, 4)] }⟩, report := .start none,
      pending := { acquire := true }, count := 3 }
  generalize hsource : " (\t$Base + 2 )\u2003* -  \u00a0 0x1F /\n3 ".toList = source
  have hvalue : reader.constants.evaluate source = .ok (-62) := by
    rw [← hsource]
    decide +kernel
  have hsolid : Text.solid source = "($Base+2)*-0x1F/3".toList := by
    rw [← hsource]
    decide +kernel
  have hfirst : (Text.trimStart source).head? = some '(' := by
    rw [← hsource]
    decide +kernel
  obtain ⟨hload, hwait, hsame⟩ := read_expression_operand reader 7 hvalue
  refine ⟨reader, source, _, rfl, rfl, hvalue, ?_, ?_, ?_⟩
  · rw [← hsolid]
    exact hsame
  · rw [← hsolid, hload]
  · rw [← hsolid, hwait (by simp [hfirst])]

end Reader

end Sequencer
