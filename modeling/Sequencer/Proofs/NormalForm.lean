import Mathlib
import Sequencer.Proofs.OperandText

/-!
# The normal form of a line

A text in which blanks are single spaces is told by its other characters and by where among them
blanks stand. Normalization keeps the characters, and of the blanks between two neighbours among
them it keeps one space, unless a rule joins the two. This leaves one text for each line, and a line
that is that text already is not changed.
-/

namespace Sequencer

namespace Text

variable {s t g rest : Text} {c : Char} {n : ℕ}

/-- A blank stands behind just `n` characters that are no blanks. -/
def HasBlankAfter (t : Text) (n : ℕ) : Prop :=
  ∃ front c back, t = front ++ c :: back ∧ isBlank c = true ∧ (solid front).length = n

/-- Every blank is a space, and no two of them are neighbours. -/
structure IsSingleSpaced (t : Text) : Prop where
  space : ∀ c ∈ t, isBlank c = true → c = ' '
  single : t.IsChain fun c d ↦ isBlank c = true → isBlank d = false

theorem solid_append (s t : Text) : solid (s ++ t) = solid s ++ solid t :=
  List.filter_append s t

theorem solid_of_blanks (h : ∀ c ∈ g, isBlank c = true) : solid g = [] :=
  List.filter_eq_nil_iff.2 fun c hc ↦ by simp [h c hc]

theorem solid_append_of_blanks (h : ∀ c ∈ g, isBlank c = true) (t : Text) :
    solid (g ++ t) = solid t := by
  rw [solid_append, solid_of_blanks h, List.nil_append]

/-! ## Where blanks stand -/

theorem not_hasBlankAfter_nil : ¬HasBlankAfter [] n := by simp [HasBlankAfter]

theorem hasBlankAfter_cons : HasBlankAfter (c :: rest) n ↔
    isBlank c = true ∧ n = 0 ∨ ∃ front d back, rest = front ++ d :: back ∧ isBlank d = true ∧
      (solid (c :: front)).length = n := by
  constructor
  · rintro ⟨front, d, back, heq, hblank, hlength⟩
    cases front with
    | nil =>
      obtain ⟨rfl, rfl⟩ := List.cons.inj heq
      exact .inl ⟨hblank, hlength.symm⟩
    | cons e front =>
      obtain ⟨rfl, rfl⟩ := List.cons.inj heq
      exact .inr ⟨front, d, back, rfl, hblank, hlength⟩
  · rintro (⟨hblank, rfl⟩ | ⟨front, d, back, rfl, hblank, hlength⟩)
    · exact ⟨[], c, rest, rfl, hblank, rfl⟩
    · exact ⟨c :: front, d, back, rfl, hblank, hlength⟩

theorem hasBlankAfter_cons_of_blank (h : isBlank c = true) :
    HasBlankAfter (c :: rest) n ↔ n = 0 ∨ HasBlankAfter rest n := by
  rw [hasBlankAfter_cons]
  simp only [h, true_and, solid_cons_of_blank h]
  rfl

theorem hasBlankAfter_cons_succ (h : isBlank c = false) :
    HasBlankAfter (c :: rest) (n + 1) ↔ HasBlankAfter rest n := by
  rw [hasBlankAfter_cons]
  simp only [h, Bool.false_eq_true, false_and, false_or, solid_cons h, List.length_cons,
    Nat.add_right_cancel_iff]
  rfl

theorem hasBlankAfter_zero : HasBlankAfter t 0 ↔ ∃ c ∈ t.head?, isBlank c = true := by
  cases t with
  | nil => simp [not_hasBlankAfter_nil]
  | cons c rest =>
    cases hc : isBlank c with
    | true => simp [hasBlankAfter_cons_of_blank hc, hc]
    | false => simp [hasBlankAfter_cons, hc, solid_cons hc]

theorem not_hasBlankAfter_zero (h : ∀ c ∈ t.head?, isBlank c = false) : ¬HasBlankAfter t 0 := by
  rw [hasBlankAfter_zero]
  rintro ⟨c, hc, hblank⟩
  rw [h c hc] at hblank
  cases hblank

/-- Leading blanks have no part in what stands behind a first character. -/
theorem hasBlankAfter_append_succ (h : ∀ c ∈ g, isBlank c = true) :
    HasBlankAfter (g ++ t) (n + 1) ↔ HasBlankAfter t (n + 1) := by
  induction g with
  | nil => rfl
  | cons c g ih =>
    rw [List.forall_mem_cons] at h
    rw [List.cons_append, hasBlankAfter_cons_of_blank h.1, ih h.2]
    simp

theorem hasBlankAfter_append_zero (h : ∀ c ∈ g, isBlank c = true) (hc : isBlank c = false) :
    HasBlankAfter (g ++ c :: rest) 0 ↔ g ≠ [] := by
  rw [hasBlankAfter_zero]
  cases g with
  | nil => simp [hc]
  | cons d g => simp [h d List.mem_cons_self]

/-- Where a text ends in a character that is no blank, each blank has such a character behind it. -/
theorem HasBlankAfter.lt_length (h : HasBlankAfter t n)
    (hlast : ∀ c ∈ t.getLast?, isBlank c = false) : n < (solid t).length := by
  obtain ⟨front, c, back, rfl, hblank, rfl⟩ := h
  have hne : solid (c :: back) ≠ [] := by
    intro hnil
    have hall : ∀ d ∈ c :: back, isBlank d = true := by simpa [solid] using hnil
    have hd := List.getLast?_eq_some_getLast (List.cons_ne_nil c back)
    have hsolid := hlast _ (by rw [List.getLast?_append, hd]; rfl)
    rw [hall _ (List.getLast_mem _)] at hsolid
    cases hsolid
  have hpos := List.length_pos_iff.2 hne
  rw [solid_append, List.length_append]
  omega

theorem eq_nil_of_solid (hsolid : solid t = []) (hblank : ¬HasBlankAfter t 0) : t = [] := by
  cases t with
  | nil => rfl
  | cons c rest =>
    cases hc : isBlank c with
    | true => exact absurd (hasBlankAfter_zero.2 ⟨c, rfl, hc⟩) hblank
    | false =>
      rw [solid_cons hc] at hsolid
      cases hsolid

namespace IsSingleSpaced

theorem tail (h : IsSingleSpaced (c :: rest)) : IsSingleSpaced rest :=
  ⟨fun d hd ↦ h.space d (List.mem_cons_of_mem c hd), h.single.tail⟩

theorem not_hasBlankAfter_tail (h : IsSingleSpaced (c :: rest)) (hc : isBlank c = true) :
    ¬HasBlankAfter rest 0 :=
  not_hasBlankAfter_zero fun d hd ↦ (List.isChain_cons.1 h.single).1 d hd hc

/-- The characters of a text that are no blanks, and the places where it has blanks between them,
leave no choice of the text. -/
theorem eq_of_hasBlankAfter_iff (hs : IsSingleSpaced s) (ht : IsSingleSpaced t)
    (hsolid : solid s = solid t) (hblank : ∀ n, HasBlankAfter s n ↔ HasBlankAfter t n) : s = t := by
  induction s generalizing t with
  | nil => exact (eq_nil_of_solid hsolid.symm (by simp [← hblank, not_hasBlankAfter_nil])).symm
  | cons c s ih =>
    cases t with
    | nil => exact eq_nil_of_solid hsolid (by simp [hblank, not_hasBlankAfter_nil])
    | cons d t =>
      have hkind : isBlank c = isBlank d := by
        have hzero := hblank 0
        rw [hasBlankAfter_zero, hasBlankAfter_zero] at hzero
        rw [Bool.eq_iff_iff]
        simpa using hzero
      cases hd : isBlank d with
      | true =>
        have hc := hkind.trans hd
        rw [solid_cons_of_blank hc, solid_cons_of_blank hd] at hsolid
        -- neither text goes on with a second blank, so their places still agree without the first
        have hrest : ∀ n, HasBlankAfter s n ↔ HasBlankAfter t n := by
          intro n
          cases n with
          | zero => exact iff_of_false (hs.not_hasBlankAfter_tail hc) (ht.not_hasBlankAfter_tail hd)
          | succ n =>
            simpa [hasBlankAfter_cons_of_blank hc, hasBlankAfter_cons_of_blank hd] using
              hblank (n + 1)
        rw [hs.space c List.mem_cons_self hc, ht.space d List.mem_cons_self hd,
          ih hs.tail ht.tail hsolid hrest]
      | false =>
        have hc := hkind.trans hd
        rw [solid_cons hc, solid_cons hd] at hsolid
        obtain ⟨rfl, heq⟩ := List.cons.inj hsolid
        have hrest : ∀ n, HasBlankAfter s n ↔ HasBlankAfter t n := by
          intro n
          rw [← hasBlankAfter_cons_succ hc, hblank, hasBlankAfter_cons_succ hc]
        rw [ih hs.tail ht.tail heq hrest]

end IsSingleSpaced

end Text

namespace Source

open Text

variable {line s t g rest out : Text} {b c : Char}

/-! ## Normal texts -/

/-- Blanks are single spaces, and none of them stands at an end or where a rule joins. -/
structure IsNormal (t : Text) : Prop extends IsSingleSpaced t where
  first : ∀ c ∈ t.head?, isBlank c = false
  last : ∀ c ∈ t.getLast?, isBlank c = false
  after : t.IsChain fun c d ↦ c ∈ joinAfter → isBlank d = false
  before : t.IsChain fun c d ↦ d ∈ joinBefore → isBlank c = false

/-- The normal text with the characters of a line. Between two neighbours among them it has a blank
where the line has one and no rule joins the two. -/
structure IsNormalForm (line t : Text) : Prop extends IsNormal t where
  solid_eq : solid t = solid line
  hasBlank_iff : ∀ n before after, (solid line)[n]? = some before →
    (solid line)[n + 1]? = some after →
      (HasBlankAfter t (n + 1) ↔
        HasBlankAfter line (n + 1) ∧ before ∉ joinAfter ∧ after ∉ joinBefore)

theorem keepsGap_iff : keepsGap b c = true ↔ b ∉ joinAfter ∧ c ∉ joinBefore := by
  simp [keepsGap]

namespace IsNormal

theorem nil : IsNormal [] := by
  refine ⟨⟨?_, .nil⟩, ?_, ?_, .nil, .nil⟩ <;> simp

theorem singleton (hb : isBlank b = false) : IsNormal [b] := by
  refine ⟨⟨?_, .singleton b⟩, ?_, ?_, .singleton b, .singleton b⟩ <;> simp [hb]

theorem cons (h : IsNormal (c :: rest)) (hb : isBlank b = false) : IsNormal (b :: c :: rest) where
  space := List.forall_mem_cons.2 ⟨by simp [hb], h.space⟩
  single := .cons_cons (by simp [hb]) h.single
  first := by simpa using hb
  last := by simpa using h.last
  after := .cons_cons (fun _ ↦ h.first c rfl) h.after
  before := .cons_cons (fun _ ↦ hb) h.before

theorem cons_space (h : IsNormal (c :: rest)) (hb : isBlank b = false)
    (hkeeps : keepsGap b c = true) : IsNormal (b :: ' ' :: c :: rest) where
  space := List.forall_mem_cons.2 ⟨by simp [hb], List.forall_mem_cons.2 ⟨fun _ ↦ rfl, h.space⟩⟩
  single := .cons_cons (by simp [hb]) (.cons_cons (fun _ ↦ h.first c rfl) h.single)
  first := by simpa using hb
  last := by simpa using h.last
  after := .cons_cons (fun hjoin ↦ absurd hjoin (keepsGap_iff.1 hkeeps).1)
    (.cons_cons (fun _ ↦ h.first c rfl) h.after)
  before := .cons_cons (fun _ ↦ hb)
    (.cons_cons (fun hjoin ↦ absurd hjoin (keepsGap_iff.1 hkeeps).2) h.before)

end IsNormal

/-- What is left of the blanks between two characters. -/
def normalGap (b : Char) (g : Text) (c : Char) : Text :=
  if !g.isEmpty && keepsGap b c then [' '] else []

theorem isBlank_of_mem_normalGap : ∀ d ∈ normalGap b g c, isBlank d = true := by
  unfold normalGap
  split
  · simpa using (by decide : isBlank ' ' = true)
  · simp

theorem normalGap_ne_nil_iff :
    normalGap b g c ≠ [] ↔ g ≠ [] ∧ b ∉ joinAfter ∧ c ∉ joinBefore := by
  rw [← keepsGap_iff]
  unfold normalGap
  split
  · next hkept => simpa using hkept
  · next hdropped => simpa using hdropped

theorem IsNormal.cons_normalGap (h : IsNormal (c :: rest)) (hb : isBlank b = false) (g : Text) :
    IsNormal (b :: (normalGap b g c ++ c :: rest)) := by
  unfold normalGap
  split
  · next hkept => exact h.cons_space hb (Bool.and_eq_true_iff.1 hkept).2
  · exact h.cons hb

namespace IsNormalForm

theorem nil : IsNormalForm [] [] :=
  ⟨.nil, rfl, fun _ _ _ hbefore ↦ by cases hbefore⟩

/-- Blanks before a line do not show in its normal form. -/
theorem cons_blank (h : IsNormalForm line t) (hc : isBlank c = true) :
    IsNormalForm (c :: line) t where
  toIsNormal := h.toIsNormal
  solid_eq := by rw [solid_cons_of_blank hc, h.solid_eq]
  hasBlank_iff := by
    intro n before after hbefore hafter
    rw [solid_cons_of_blank hc] at hbefore hafter
    rw [h.hasBlank_iff n before after hbefore hafter, hasBlankAfter_cons_of_blank hc]
    simp

/-- Blanks behind the last character do not show either. -/
theorem last_char (hb : isBlank b = false) (hg : ∀ c ∈ g, isBlank c = true) :
    IsNormalForm (b :: g) [b] := by
  have hsolid : solid (b :: g) = [b] := by rw [solid_cons hb, solid_of_blanks hg]
  refine ⟨.singleton hb, by rw [hsolid, solid_cons hb]; rfl, ?_⟩
  intro n before after _ hafter
  rw [hsolid] at hafter
  cases hafter

/-- One character more in front, with or without blanks behind it. -/
theorem cons_gap (h : IsNormalForm (c :: rest) (c :: out)) (hb : isBlank b = false)
    (hg : ∀ d ∈ g, isBlank d = true) :
    IsNormalForm (b :: (g ++ c :: rest)) (b :: (normalGap b g c ++ c :: out)) where
  toIsNormal := h.toIsNormal.cons_normalGap hb g
  solid_eq := by
    rw [solid_cons hb, solid_cons hb, solid_append_of_blanks hg,
      solid_append_of_blanks isBlank_of_mem_normalGap, h.solid_eq]
  hasBlank_iff := by
    have hc : isBlank c = false := h.first c rfl
    intro n before after hbefore hafter
    rw [solid_cons hb, solid_append_of_blanks hg] at hbefore hafter
    rw [hasBlankAfter_cons_succ hb, hasBlankAfter_cons_succ hb]
    cases n with
    | zero =>
      rw [solid_cons hc] at hafter
      obtain rfl : b = before := Option.some.inj hbefore
      obtain rfl : c = after := Option.some.inj hafter
      rw [hasBlankAfter_append_zero isBlank_of_mem_normalGap hc, hasBlankAfter_append_zero hg hc]
      exact normalGap_ne_nil_iff
    | succ n =>
      rw [hasBlankAfter_append_succ isBlank_of_mem_normalGap, hasBlankAfter_append_succ hg]
      exact h.hasBlank_iff n before after hbefore hafter

/-- Each blank of a normal form stands between two characters, and there the line decides. -/
theorem hasBlankAfter_transfer (hs : IsNormalForm line s) (ht : IsNormalForm line t) {n : ℕ}
    (h : HasBlankAfter s n) : HasBlankAfter t n := by
  have hlength := h.lt_length hs.last
  cases n with
  | zero => exact absurd h (not_hasBlankAfter_zero hs.first)
  | succ n =>
    rw [hs.solid_eq] at hlength
    have hbefore := List.getElem?_eq_getElem (Nat.lt_of_succ_lt hlength)
    have hafter := List.getElem?_eq_getElem hlength
    exact (ht.hasBlank_iff n _ _ hbefore hafter).2 ((hs.hasBlank_iff n _ _ hbefore hafter).1 h)

theorem unique (hs : IsNormalForm line s) (ht : IsNormalForm line t) : s = t :=
  hs.eq_of_hasBlankAfter_iff ht.toIsSingleSpaced (hs.solid_eq.trans ht.solid_eq.symm)
    fun _ ↦ ⟨hs.hasBlankAfter_transfer ht, ht.hasBlankAfter_transfer hs⟩

/-- No rule joins where a normal form has a blank, so nothing in it is left to be dropped. -/
theorem self (h : IsNormalForm line t) : IsNormalForm t t where
  toIsNormal := h.toIsNormal
  solid_eq := rfl
  hasBlank_iff := by
    intro n before after hbefore hafter
    rw [h.solid_eq] at hbefore hafter
    constructor
    · intro hblank
      exact ⟨hblank, ((h.hasBlank_iff n before after hbefore hafter).1 hblank).2⟩
    · exact And.left

end IsNormalForm

/-! ## Normalization -/

theorem normalizeFrom_solid (hc : isBlank c = false) (b : Char) (g rest : Text) :
    normalizeFrom (some b) (!g.isEmpty) (c :: rest) =
      normalGap b g c ++ c :: normalizeFrom (some c) false rest := by
  rw [normalizeFrom, if_neg (by simp [hc]), normalGap, Option.any_some]
  split <;> rfl

/-- The invariant of the pass over a line: `b` was written last, and the blanks `g` were met since.
What is still to be written completes the normal form of what `b` begins. -/
theorem isNormalForm_normalizeFrom (hb : isBlank b = false) (hg : ∀ c ∈ g, isBlank c = true)
    (t : Text) :
    IsNormalForm (b :: (g ++ t)) (b :: normalizeFrom (some b) (!g.isEmpty) t) := by
  induction t generalizing b g with
  | nil =>
    rw [List.append_nil]
    exact .last_char hb hg
  | cons c rest ih =>
    cases hc : isBlank c with
    | true =>
      have hmore : ∀ d ∈ g ++ [c], isBlank d = true :=
        List.forall_mem_append.2 ⟨hg, by simpa using hc⟩
      have hmet : (!List.isEmpty (g ++ [c])) = true := by simp [List.isEmpty_eq_false_iff]
      have hform := ih hb hmore
      rw [List.append_assoc, List.singleton_append, hmet] at hform
      rw [normalizeFrom, if_pos hc]
      exact hform
    | false =>
      rw [normalizeFrom_solid hc]
      exact (ih hc (g := []) (by simp)).cons_gap hb hg

theorem isNormalForm_normalizeFrom_none (gap : Bool) (line : Text) :
    IsNormalForm line (normalizeFrom none gap line) := by
  induction line generalizing gap with
  | nil => exact .nil
  | cons c rest ih =>
    rw [normalizeFrom]
    cases hc : isBlank c with
    | true => exact (ih true).cons_blank hc
    | false =>
      rw [Option.any_none, Bool.and_false]
      exact isNormalForm_normalizeFrom hc (g := []) (by simp) rest

theorem isNormalForm_normalize (line : Text) : IsNormalForm line (normalize line) :=
  isNormalForm_normalizeFrom_none false line

/-- The normal form of a line is the one text with its characters that has blanks as single spaces,
none at its ends or where a rule joins, and one wherever else the line has blanks. So a second pass
changes nothing. -/
theorem normalize_canonical (line : Text) :
    (∀ t, IsNormalForm line t ↔ t = normalize line) ∧
      normalize (normalize line) = normalize line := by
  have hform := isNormalForm_normalize line
  refine ⟨fun t ↦ ⟨fun ht ↦ ht.unique hform, ?_⟩, ?_⟩
  · rintro rfl
    exact hform
  · exact (isNormalForm_normalize (normalize line)).unique hform.self

/-- A gap is dropped beside a comma, a bracket or an operator, and is one space elsewhere. -/
example : normalize "\tLD  CC ,  ( $A * $B )\u3000".toList = "LD CC,($A*$B)".toList := by decide

end Source

end Sequencer
