import Mathlib
import Sequencer.Proofs.OperandText

/-!
# Parentheses of an expression

No beginning of an expression closes more parentheses than it opens, and the whole closes as many.
An expression that begins and ends with parentheses is one of two things. Either these two belong
together, and what stands between them has the value of the whole, or the first is closed before the
last, and what stands between them has no value.
-/

namespace Sequencer

/-! ## Depth -/

namespace Nesting

variable {α : Type} {nesting : α → ℤ} {x : α} {xs front back : List α} {n : ℤ}

/-- How many parentheses are left open, when each element opens or closes so many. -/
def depth (nesting : α → ℤ) (xs : List α) : ℤ := (xs.map nesting).sum

/-- A beginning of the list leaves so many parentheses open. -/
def Reaches (nesting : α → ℤ) (xs : List α) (n : ℤ) : Prop :=
  ∃ front, front <+: xs ∧ depth nesting front = n

theorem depth_cons : depth nesting (x :: xs) = nesting x + depth nesting xs := List.sum_cons

theorem depth_append :
    depth nesting (front ++ back) = depth nesting front + depth nesting back := by
  rw [depth, List.map_append, List.sum_append]
  rfl

theorem reaches_nil_iff : Reaches nesting [] n ↔ n = 0 := by
  simp [Reaches, depth, eq_comm]

theorem reaches_append_iff :
    Reaches nesting (front ++ back) n ↔
      Reaches nesting front n ∨ Reaches nesting back (n - depth nesting front) := by
  constructor
  · rintro ⟨first, hfirst, rfl⟩
    rcases List.prefix_or_prefix_of_prefix hfirst (List.prefix_append front back) with
      hshort | ⟨rest, rfl⟩
    · exact .inl ⟨first, hshort, rfl⟩
    · refine .inr ⟨rest, (List.prefix_append_right_inj front).1 hfirst, ?_⟩
      rw [depth_append, add_sub_cancel_left]
  · rintro (⟨first, hfirst, rfl⟩ | ⟨rest, hrest, hdepth⟩)
    · exact ⟨first, hfirst.trans (List.prefix_append front back), rfl⟩
    · refine ⟨front ++ rest, (List.prefix_append_right_inj front).2 hrest, ?_⟩
      rw [depth_append, hdepth, add_sub_cancel]

theorem reaches_cons_iff :
    Reaches nesting (x :: xs) n ↔ n = 0 ∨ Reaches nesting xs (n - nesting x) := by
  constructor
  · rintro ⟨first, hfirst, rfl⟩
    rcases List.prefix_cons_iff.1 hfirst with rfl | ⟨rest, rfl, hrest⟩
    · exact .inl rfl
    · exact .inr ⟨rest, hrest, by rw [depth_cons, add_sub_cancel_left]⟩
  · rintro (rfl | ⟨rest, hrest, hdepth⟩)
    · exact ⟨[], List.nil_prefix, rfl⟩
    · exact ⟨x :: rest, List.cons_prefix_cons.2 ⟨rfl, hrest⟩, by
        rw [depth_cons, hdepth, add_sub_cancel]⟩

/-- An element that neither opens nor closes changes nothing at the front. -/
theorem reaches_cons_of_flat (h : nesting x = 0) :
    Reaches nesting (x :: xs) n ↔ Reaches nesting xs n := by
  rw [reaches_cons_iff, h, sub_zero, or_iff_right_iff_imp]
  rintro rfl
  exact ⟨[], List.nil_prefix, rfl⟩

theorem reaches_append_of_flat (h : ∀ x ∈ front, nesting x = 0) :
    Reaches nesting (front ++ back) n ↔ Reaches nesting back n := by
  induction front with
  | nil => rfl
  | cons x rest ih =>
    rw [List.forall_mem_cons] at h
    rw [List.cons_append, reaches_cons_of_flat h.1, ih h.2]

end Nesting

namespace Expression

open Nesting

def Token.nesting : Token → ℤ
  | opening => 1
  | closing => -1
  | number _ | name _ | plus | minus | times | divide => 0

/-! ## Balanced tokens -/

/-- Nothing is closed that was not opened before, and nothing is left open. -/
structure Balanced (ts : List Token) : Prop where
  nonneg : ∀ n, Reaches Token.nesting ts n → 0 ≤ n
  closed : depth Token.nesting ts = 0

theorem balanced_singleton {token : Token} (h : token.nesting = 0) : Balanced [token] where
  nonneg := by
    intro n hn
    rw [reaches_cons_iff, h, sub_zero, reaches_nil_iff, or_self] at hn
    exact hn.ge
  closed := by rw [depth_cons, h]; rfl

theorem Balanced.append {front back : List Token} (hfront : Balanced front)
    (hback : Balanced back) : Balanced (front ++ back) where
  nonneg := by
    intro n hn
    rw [reaches_append_iff, hfront.closed, sub_zero] at hn
    exact hn.elim (hfront.nonneg n) (hback.nonneg n)
  closed := by rw [depth_append, hfront.closed, hback.closed, add_zero]

theorem Balanced.parentheses {ts : List Token} (h : Balanced ts) :
    Balanced (.opening :: (ts ++ [.closing])) where
  nonneg := by
    intro n hn
    rw [reaches_cons_iff, reaches_append_iff, reaches_cons_iff, reaches_nil_iff, h.closed] at hn
    -- at each place one more is open than within the pair
    rcases hn with rfl | hinner | hlast
    · exact le_rfl
    · have hnonneg := h.nonneg _ hinner
      rw [Token.nesting] at hnonneg
      omega
    · simp only [Token.nesting] at hlast
      omega
  closed := by
    rw [depth_cons, depth_append, h.closed]
    rfl

/-- An operator takes no part in the balance of its operands. -/
theorem Balanced.around {ls rs : List Token} {operator : Token} (hl : Balanced ls)
    (hoperator : operator.nesting = 0) (hr : Balanced rs) : Balanced (ls ++ operator :: rs) :=
  hl.append ((balanced_singleton hoperator).append hr)

theorem Derives.balanced {level : Level} {ts : List Token} {tree : Tree}
    (h : Derives level ts tree) : Balanced ts := by
  induction h with
  | term _ ih | factor _ ih | atom _ ih => exact ih
  | sum operator _ _ ihl ihr => cases operator <;> exact ihl.around rfl ihr
  | product operator _ _ ihl ihr => cases operator <;> exact ihl.around rfl ihr
  | minus _ ih | plus _ ih => exact (balanced_singleton rfl).append ih
  | number n => exact balanced_singleton rfl
  | name text => exact balanced_singleton rfl
  | parentheses _ ih => exact ih.parentheses

/-! ## The first parenthesis and the last -/

/-- The left operand of an operator closes what it opens, so its first parenthesis is not the
partner of one behind the operator. -/
theorem Derives.reaches_of_append {level : Level} {ls rs mid : List Token} {left : Tree}
    {operator : Token} (hleft : Derives level ls left)
    (h : ls ++ operator :: rs = .opening :: (mid ++ [.closing])) :
    Reaches Token.nesting mid (-1) := by
  have hclosed := hleft.balanced.closed
  obtain ⟨first, front, rfl, -⟩ := hleft.exists_first
  obtain ⟨rfl, hmid⟩ := List.cons.inj h
  refine ⟨front, (List.prefix_concat_iff.1 ⟨_, hmid⟩).resolve_left ?_, ?_⟩
  · -- the operator stands behind it, so it does not reach the last parenthesis
    rintro rfl
    simp at hmid
  · rw [depth_cons, Token.nesting] at hclosed
    omega

/-- Tokens of an expression that begin and end with parentheses: these enclose an expression with
the same tree, or the first of them is closed before the last. -/
theorem Derives.inner_or_reaches {level : Level} {ts mid : List Token} {tree : Tree}
    (h : Derives level ts tree) (hts : ts = .opening :: (mid ++ [.closing])) :
    Derives .sum mid tree ∨ Reaches Token.nesting mid (-1) := by
  induction h with
  | term _ ih | factor _ ih | atom _ ih => exact ih hts
  | sum operator hleft _ _ _ | product operator hleft _ _ _ =>
    exact .inr (hleft.reaches_of_append hts)
  | minus _ _ | plus _ _ => cases hts
  | number n => cases hts
  | name text => cases hts
  | parentheses hinner _ =>
    obtain ⟨-, hmid⟩ := List.cons.inj hts
    rw [List.append_cancel_right hmid] at hinner
    exact .inl hinner

/-! ## Parentheses of a text -/

def charNesting (c : Char) : ℤ := if c = '(' then 1 else if c = ')' then -1 else 0

theorem charNesting_of_ne {c : Char} (hopening : c ≠ '(') (hclosing : c ≠ ')') :
    charNesting c = 0 := by
  rw [charNesting, if_neg hopening, if_neg hclosing]

theorem charNesting_of_isWord {c : Char} (h : Text.isWord c = true) : charNesting c = 0 :=
  charNesting_of_ne (Text.ne_of_isWord h (by decide)) (Text.ne_of_isWord h (by decide))

theorem charNesting_of_isBlank {c : Char} (h : Text.isBlank c = true) : charNesting c = 0 := by
  apply charNesting_of_ne
  · rintro rfl
    exact absurd h (by decide)
  · rintro rfl
    exact absurd h (by decide)

theorem charNesting_symbol {c : Char} {token : Token} (h : (c, token) ∈ symbols) :
    charNesting c = token.nesting := by
  have hall : ∀ symbol ∈ symbols, charNesting symbol.1 = symbol.2.nesting := by decide
  exact hall (c, token) h

variable {source : Text} {ts : List Token}

/-- The word that a text begins with neither opens nor closes anything. -/
theorem reaches_dropWhile_isWord_iff {n : ℤ} :
    Reaches charNesting (source.dropWhile Text.isWord) n ↔ Reaches charNesting source n := by
  have hflat : ∀ c ∈ source.takeWhile Text.isWord, charNesting c = 0 :=
    fun c hc ↦ charNesting_of_isWord (List.mem_takeWhile_imp hc)
  rw [← reaches_append_of_flat hflat, List.takeWhile_append_dropWhile]

/-- The beginnings of a text leave as many parentheses open as those of its tokens. -/
theorem Lexes.reaches_iff (h : Lexes source ts) (n : ℤ) :
    Reaches charNesting source n ↔ Reaches Token.nesting ts n := by
  induction h generalizing n with
  | nil => rw [reaches_nil_iff, reaches_nil_iff]
  | blank hblank _ ih => rw [reaches_cons_of_flat (charNesting_of_isBlank hblank), ih]
  | symbol hsymbol _ ih =>
    rw [reaches_cons_iff, reaches_cons_iff, ih, charNesting_symbol hsymbol]
  | @name rest _ _ _ ih =>
    have hdollar : charNesting '$' = 0 := rfl
    have hname : (Token.name (rest.takeWhile Text.isWord)).nesting = 0 := rfl
    rw [reaches_cons_of_flat hdollar, reaches_cons_of_flat hname, ← ih,
      reaches_dropWhile_isWord_iff]
  | @number c number rest _ hdigit _ _ ih =>
    have hc : charNesting c = 0 := charNesting_of_isWord (isWord_of_isDigit hdigit)
    have hnumber : (Token.number number).nesting = 0 := rfl
    rw [reaches_cons_of_flat hc, reaches_cons_of_flat hnumber, ← ih, reaches_dropWhile_isWord_iff]

/-- A character of another kind behind a text does not change what its beginning is. -/
theorem Text.span_concat {p : Char → Bool} {c : Char} (hc : p c = false) (t : Text) :
    (t ++ [c]).takeWhile p = t.takeWhile p ∧ (t ++ [c]).dropWhile p = t.dropWhile p ++ [c] := by
  have hhead : ∀ d ∈ (t.dropWhile p ++ [c]).head?, p d = false := by
    intro d hd
    have hnot := List.head?_dropWhile_not p t
    cases hrest : t.dropWhile p with
    | nil =>
      rw [hrest] at hd
      rwa [← Option.some.inj hd]
    | cons e rest =>
      rw [hrest] at hd hnot
      rwa [← Option.some.inj hd]
  have hspan := Text.span_append (t.takeWhile p) (t.dropWhile p ++ [c])
    (fun d hd ↦ List.mem_takeWhile_imp hd) hhead
  rwa [← List.append_assoc, List.takeWhile_append_dropWhile] at hspan

/-- A symbol at the end of a text is the last of its tokens. -/
theorem Lexes.of_concat {c : Char} {token : Token} (hsymbol : (c, token) ∈ symbols) {inner : Text}
    (h : Lexes (inner ++ [c]) ts) : ∃ mid, ts = mid ++ [token] ∧ Lexes inner mid := by
  obtain ⟨hblank, hword, hdollar, -, hunique⟩ := symbols_spec hsymbol
  generalize hsource : inner ++ [c] = source at h
  induction h generalizing inner with
  | nil => simp at hsource
  | blank hd _ ih =>
    cases inner with
    | nil =>
      obtain ⟨rfl, -⟩ := List.cons.inj hsource
      rw [hblank] at hd
      cases hd
    | cons d inner =>
      obtain ⟨rfl, rfl⟩ := List.cons.inj hsource
      obtain ⟨mid, rfl, hmid⟩ := ih rfl
      exact ⟨mid, rfl, .blank hd hmid⟩
  | symbol hother hrest ih =>
    cases inner with
    | nil =>
      obtain ⟨rfl, rfl⟩ := List.cons.inj hsource
      cases hrest
      exact ⟨[], by rw [hunique _ hother]; rfl, .nil⟩
    | cons d inner =>
      obtain ⟨rfl, rfl⟩ := List.cons.inj hsource
      obtain ⟨mid, rfl, hmid⟩ := ih rfl
      exact ⟨_ :: mid, rfl, .symbol hother hmid⟩
  | name hne _ ih =>
    cases inner with
    | nil => exact absurd (List.cons.inj hsource).1 hdollar
    | cons d inner =>
      rw [List.cons_append, List.cons.injEq] at hsource
      obtain ⟨rfl, rfl⟩ := hsource
      -- the name stops before the symbol, so it is the same without it
      obtain ⟨htake, hdrop⟩ := Text.span_concat hword inner
      obtain ⟨mid, rfl, hmid⟩ := ih hdrop.symm
      rw [htake] at hne ⊢
      exact ⟨_ :: mid, rfl, .name hne hmid⟩
  | number hdigit hliteral _ ih =>
    cases inner with
    | nil =>
      rw [← (List.cons.inj hsource).1] at hdigit
      rw [isWord_of_isDigit hdigit] at hword
      cases hword
    | cons d inner =>
      rw [List.cons_append, List.cons.injEq] at hsource
      obtain ⟨rfl, rfl⟩ := hsource
      obtain ⟨htake, hdrop⟩ := Text.span_concat hword inner
      obtain ⟨mid, rfl, hmid⟩ := ih hdrop.symm
      rw [htake] at hliteral
      exact ⟨_ :: mid, rfl, .number hdigit hliteral hmid⟩

theorem Lexes.of_parentheses {inner : Text} (h : Lexes ('(' :: (inner ++ [')'])) ts) :
    ∃ mid, ts = .opening :: (mid ++ [.closing]) ∧ Lexes inner mid := by
  have hopening : ('(', Token.opening) ∈ symbols := by decide
  have hclosing : (')', Token.closing) ∈ symbols := by decide
  cases h with
  | blank hblank =>
    rw [(symbols_spec hopening).1] at hblank
    cases hblank
  | symbol hsymbol hrest =>
    obtain rfl := (symbols_spec hopening).2.2.2.2 _ hsymbol
    obtain ⟨mid, rfl, hmid⟩ := hrest.of_concat hclosing
    exact ⟨mid, rfl, hmid⟩
  | number hdigit => exact absurd hdigit (by decide)

/-! ## Values -/

/-- A text begins and ends with parentheses, but the first is closed before the last. -/
def IsSplit (source : Text) : Prop :=
  ∃ inner, source = '(' :: (inner ++ [')']) ∧ Reaches charNesting inner (-1)

variable {lookup : Text → Option ℤ} {value : ℤ} {inner : Text}

/-- A text with a value closes nothing that it did not open. -/
theorem not_reaches_of_evaluate (h : evaluate lookup source = .ok value) :
    ¬ Reaches charNesting source (-1) := by
  obtain ⟨ts, htokens, hvalue⟩ := evaluate_eq_ok_iff_value.1 h
  obtain ⟨tree, hderives, -⟩ := value_eq_ok_iff.1 hvalue
  rw [(tokens_eq_ok_iff.1 htokens).1.reaches_iff]
  intro hreaches
  exact absurd (hderives.balanced.nonneg _ hreaches) (by decide)

/-- Parentheses around a whole text with a value can be left out. -/
theorem evaluate_inner (h : evaluate lookup ('(' :: (inner ++ [')'])) = .ok value)
    (hinner : ¬ Reaches charNesting inner (-1)) : evaluate lookup inner = .ok value := by
  obtain ⟨ts, htokens, hvalue⟩ := evaluate_eq_ok_iff_value.1 h
  obtain ⟨tree, hderives, hfold⟩ := value_eq_ok_iff.1 hvalue
  obtain ⟨hlexes, hbound⟩ := tokens_eq_ok_iff.1 htokens
  obtain ⟨mid, rfl, hmid⟩ := hlexes.of_parentheses
  have htree : Derives .sum mid tree := by
    refine (hderives.inner_or_reaches rfl).resolve_right ?_
    rwa [← hmid.reaches_iff]
  have hnumbers : ∀ n, .number n ∈ mid → n < numberBound := fun n hn ↦ hbound n (by simp [hn])
  exact evaluate_eq_ok_iff_value.2 ⟨mid, tokens_eq_ok_iff.2 ⟨hmid, hnumbers⟩,
    value_eq_ok_iff.2 ⟨tree, htree, hfold⟩⟩

end Expression

end Sequencer
