import Mathlib
import Sequencer.Proofs.Lexing
import Sequencer.Proofs.Reading
import Sequencer.Proofs.Source

/-!
# Lines that differ in their layout only

Which blanks stand between two other characters, and how many of them, has no meaning in a source.
Nor have blanks at the ends of a line, or comments. What each step of reading makes of two such
lines again differs in its blanks only, down to names, tokens and values, where no blank is left.
-/

namespace Sequencer

theorem Option.Rel.map {α β γ δ : Type} {r : α → β → Prop} {r' : γ → δ → Prop} {x : Option α}
    {y : Option β} (h : Option.Rel r x y) {f : α → γ} {g : β → δ}
    (hfg : ∀ a b, r a b → r' (f a) (g b)) : Option.Rel r' (x.map f) (y.map g) := by
  cases h with
  | some hab => exact .some (hfg _ _ hab)
  | none => exact .none

theorem Option.Rel.bind {α β γ δ : Type} {r : α → β → Prop} {r' : γ → δ → Prop} {x : Option α}
    {y : Option β} (h : Option.Rel r x y) {f : α → Option γ} {g : β → Option δ}
    (hfg : ∀ a b, r a b → Option.Rel r' (f a) (g b)) : Option.Rel r' (x.bind f) (y.bind g) := by
  cases h with
  | some hab => exact hfg _ _ hab
  | none => exact .none

namespace Text

/-- One or more blanks. -/
def IsGap (t : Text) : Prop := t ≠ [] ∧ ∀ c ∈ t, isBlank c = true

/-- Two texts with other gaps between the same characters. -/
inductive Respaced : Text → Text → Prop where
  | nil : Respaced [] []
  | char {c : Char} {s t : Text} (solid : isBlank c = false) (rest : Respaced s t) :
      Respaced (c :: s) (c :: t)
  | gap {g g' s t : Text} (left : IsGap g) (right : IsGap g') (rest : Respaced s t) :
      Respaced (g ++ s) (g' ++ t)

theorem IsGap.reverse {g : Text} (h : IsGap g) : IsGap g.reverse :=
  ⟨by simpa using h.1, by simpa using h.2⟩

theorem IsGap.exists_cons {g : Text} (h : IsGap g) (s : Text) :
    ∃ c rest, g ++ s = c :: rest ∧ isBlank c = true := by
  obtain ⟨c, rest, rfl⟩ := List.exists_cons_of_ne_nil h.1
  exact ⟨c, rest ++ s, rfl, h.2 c List.mem_cons_self⟩

theorem trimStart_append {g : Text} (h : ∀ c ∈ g, isBlank c = true) (t : Text) :
    trimStart (g ++ t) = trimStart t :=
  List.dropWhile_append_of_pos h

theorem trimEnd_eq (t : Text) : trimEnd t = (trimStart t.reverse).reverse := rfl

theorem trimEnd_append {g : Text} (h : ∀ c ∈ g, isBlank c = true) (t : Text) :
    trimEnd (t ++ g) = trimEnd t := by
  rw [trimEnd_eq, List.reverse_append, trimStart_append (by simpa using h), trimEnd_eq]

/-- Blanks at the ends of a text do not matter to what is left when it is trimmed. -/
theorem trim_between {before after : Text} (hbefore : ∀ c ∈ before, isBlank c = true)
    (hafter : ∀ c ∈ after, isBlank c = true) (t : Text) : trim (before ++ t ++ after) = trim t := by
  unfold trim
  rw [List.append_assoc, trimStart_append hbefore]
  unfold trimStart
  rw [List.dropWhile_append]
  split
  · next hblank =>
    rw [List.isEmpty_iff.1 hblank, List.dropWhile_eq_nil_iff.2 hafter]
  · exact trimEnd_append hafter _

theorem splitFirst_append_of_notMem {mark : Char} {front : Text} (h : mark ∉ front) (back : Text) :
    splitFirst mark (front ++ back) =
      (splitFirst mark back).map fun split ↦ (front ++ split.1, split.2) := by
  induction front with
  | nil => simp
  | cons c front ih =>
    rw [List.mem_cons, not_or] at h
    have hc : (c == mark) = false := by simpa using Ne.symm h.1
    rw [List.cons_append, splitFirst, hc, ih h.2, Option.map_map]
    rfl

namespace Respaced

variable {s t s' t' : Text}

theorem refl (t : Text) : Respaced t t := by
  induction t with
  | nil => exact .nil
  | cons c rest ih =>
    cases hc : isBlank c with
    | false => exact .char hc ih
    | true =>
      have hgap : IsGap [c] := ⟨List.cons_ne_nil c [], by simpa using hc⟩
      exact .gap hgap hgap ih

theorem symm (h : Respaced s t) : Respaced t s := by
  induction h with
  | nil => exact .nil
  | char solid _ ih => exact .char solid ih
  | gap left right _ ih => exact .gap right left ih

theorem append (h : Respaced s t) (h' : Respaced s' t') : Respaced (s ++ s') (t ++ t') := by
  induction h with
  | nil => exact h'
  | char solid _ ih => exact .char solid ih
  | gap left right _ ih =>
    rw [List.append_assoc, List.append_assoc]
    exact .gap left right ih

theorem reverse (h : Respaced s t) : Respaced s.reverse t.reverse := by
  induction h with
  | nil => exact .nil
  | char solid _ ih =>
    rw [List.reverse_cons, List.reverse_cons]
    exact ih.append (.char solid .nil)
  | gap left right _ ih =>
    rw [List.reverse_append, List.reverse_append]
    simpa using ih.append (.gap left.reverse right.reverse .nil)

theorem trimStart (h : Respaced s t) : Respaced (Text.trimStart s) (Text.trimStart t) := by
  induction h with
  | nil => exact .nil
  | char solid rest _ =>
    rw [trimStart_of_head (by simpa using solid), trimStart_of_head (by simpa using solid)]
    exact .char solid rest
  | gap left right _ ih =>
    rw [trimStart_append left.2, trimStart_append right.2]
    exact ih

theorem trimEnd (h : Respaced s t) : Respaced (Text.trimEnd s) (Text.trimEnd t) :=
  h.reverse.trimStart.reverse

theorem trim (h : Respaced s t) : Respaced (Text.trim s) (Text.trim t) := h.trimStart.trimEnd

/-- There is no gap in a name. -/
theorem eq_of_isName (h : Respaced s t) (hname : isName s = true) : t = s := by
  have hword : ∀ c ∈ s, isWord c = true := by
    simpa using (Bool.and_eq_true_iff.1 hname).2
  clear hname
  induction h with
  | nil => rfl
  | char _ _ ih =>
    rw [List.forall_mem_cons] at hword
    rw [ih hword.2]
  -- the blanks of a gap are no word characters
  | @gap g _ _ _ left _ _ _ =>
    obtain ⟨c, hc⟩ := List.exists_mem_of_ne_nil g left.1
    have hsolid := isBlank_of_isWord (hword c (List.mem_append_left _ hc))
    rw [left.2 c hc] at hsolid
    cases hsolid

theorem isName_eq (h : Respaced s t) : isName t = isName s := by
  rw [Bool.eq_iff_iff]
  constructor
  · intro hname
    rwa [h.symm.eq_of_isName hname]
  · intro hname
    rwa [h.eq_of_isName hname]

/-- A mark that is no blank splits both texts or none. -/
theorem splitFirst (h : Respaced s t) {mark : Char} (hmark : isBlank mark = false) :
    Option.Rel (fun p q : Text × Text ↦ Respaced p.1 q.1 ∧ Respaced p.2 q.2)
      (Text.splitFirst mark s) (Text.splitFirst mark t) := by
  have hgap {g : Text} (hg : IsGap g) : mark ∉ g := by
    intro hmem
    rw [hg.2 mark hmem] at hmark
    cases hmark
  induction h with
  | nil => exact .none
  | @char c _ _ solid rest ih =>
    unfold Text.splitFirst
    split
    · exact .some ⟨.nil, rest⟩
    · exact Option.Rel.map ih fun _ _ hsplit ↦ ⟨.char solid hsplit.1, hsplit.2⟩
  | gap left right _ ih =>
    rw [splitFirst_append_of_notMem (hgap left), splitFirst_append_of_notMem (hgap right)]
    exact Option.Rel.map ih fun _ _ hsplit ↦ ⟨.gap left right hsplit.1, hsplit.2⟩

/-- A character that is no blank leads both texts or none. -/
theorem head?_any_eq (h : Respaced s t) {p : Char → Bool}
    (hp : ∀ c, isBlank c = true → p c = false) : s.head?.any p = t.head?.any p := by
  cases h with
  | nil => rfl
  | char => rfl
  | gap left right _ =>
    obtain ⟨c, rest, hc, hblank⟩ := left.exists_cons _
    obtain ⟨c', rest', hc', hblank'⟩ := right.exists_cons _
    rw [hc, hc']
    exact (hp c hblank).trans (hp c' hblank').symm

end Respaced

/-- A character joins the first run of what follows it, or is a run of its own. -/
theorem runs_cons {skip : Char → Bool} {c : Char} (h : skip c = false) (joins : Char → Char → Bool)
    (rest : Text) : runs skip joins (c :: rest) =
      if rest.head?.any fun d ↦ !skip d && joins c d then
        (c :: (runs skip joins rest).headD []) :: (runs skip joins rest).tail
      else [c] :: runs skip joins rest := by
  rw [runs, h, if_neg Bool.false_ne_true]
  cases rest.head? <;> cases runs skip joins rest <;> simp

end Text

open Text

/-! ## What is read from such texts -/

theorem Expression.lexemes_append {g : Text} (h : ∀ c ∈ g, isBlank c = true) (t : Text) :
    lexemes (g ++ t) = lexemes t := by
  induction g with
  | nil => rfl
  | cons c g ih =>
    rw [List.forall_mem_cons] at h
    rw [List.cons_append, lexemes_blank h.1, ih h.2]

/-- A gap ends a lexeme, whatever its blanks are. -/
theorem Expression.lexemes_respaced {s t : Text} (h : Respaced s t) : lexemes s = lexemes t := by
  induction h with
  | nil => rfl
  | @char c s t solid rest ih =>
    have hhead := rest.head?_any_eq
      (p := fun d ↦ !isBlank d && ((isWord c || c == '$') && isWord d)) fun d hd ↦ by simp [hd]
    unfold lexemes at ih ⊢
    rw [runs_cons solid, runs_cons solid, ih, hhead]
  | gap left right _ ih => rw [lexemes_append left.2, lexemes_append right.2, ih]

theorem Constants.evaluate_respaced {s t : Text} (h : Respaced s t) (constants : Constants) :
    constants.evaluate s = constants.evaluate t := by
  unfold evaluate Expression.evaluate Expression.tokens
  rw [Expression.lexemes_respaced h]

namespace Source

theorem normalizeFrom_append {g : Text} (h : ∀ c ∈ g, isBlank c = true) (last : Option Char)
    (t : Text) : normalizeFrom last true (g ++ t) = normalizeFrom last true t := by
  induction g with
  | nil => rfl
  | cons c g ih =>
    rw [List.forall_mem_cons] at h
    rw [List.cons_append, normalizeFrom, if_pos h.1, ih h.2]

theorem normalizeFrom_gap {g : Text} (h : IsGap g) (last : Option Char) (gap : Bool) (t : Text) :
    normalizeFrom last gap (g ++ t) = normalizeFrom last true t := by
  obtain ⟨c, g, rfl⟩ := List.exists_cons_of_ne_nil h.1
  obtain ⟨hc, hg⟩ := List.forall_mem_cons.1 h.2
  rw [List.cons_append, normalizeFrom, if_pos hc, normalizeFrom_append hg]

theorem normalizeFrom_respaced {s t : Text} (h : Respaced s t) (last : Option Char) (gap : Bool) :
    normalizeFrom last gap s = normalizeFrom last gap t := by
  induction h generalizing last gap with
  | nil => rfl
  | char solid _ ih =>
    rw [normalizeFrom, normalizeFrom, ih, ih]
  | gap left right _ ih => rw [normalizeFrom_gap left, normalizeFrom_gap right, ih]

end Source

namespace Statement

variable {s t : Text}

/-- The name before a mark is the same, and what follows the mark differs in its gaps only. -/
def SplitsAlike : Option (Text × Text) → Option (Text × Text) → Prop :=
  Option.Rel fun p q ↦ p.1 = q.1 ∧ Respaced p.2 q.2

theorem splitsAlike_ite {a a' b b' : Text} (h : Respaced a a') (hb : Respaced b b')
    (f : Text → Text) : SplitsAlike (if isName a then some (f a, b) else none)
      (if isName a' then some (f a', b') else none) := by
  rw [h.isName_eq]
  split
  · next hname =>
    rw [h.eq_of_isName hname]
    exact .some ⟨rfl, hb⟩
  · exact .none

theorem splitLabel_cons (c : Char) (rest : Text) :
    splitLabel (c :: rest) = if c = '@' then (splitFirst ':' rest).bind fun p ↦
      if isName p.1 then some ('@' :: p.1, trim p.2) else none else none := by
  unfold splitLabel
  split
  · next heq =>
    obtain ⟨rfl, rfl⟩ := List.cons.inj heq
    rw [splitFirst]
    cases splitFirst ':' rest <;> rfl
  · next hne => rw [if_neg fun hc ↦ hne rest (by rw [hc])]

theorem splitDefinition_cons (c : Char) (rest : Text) :
    splitDefinition (c :: rest) = if c = '$' then (splitFirst '=' rest).bind fun p ↦
      if isName (trimEnd p.1) then some (trimEnd p.1, trim p.2) else none else none := by
  unfold splitDefinition
  split
  · next heq =>
    obtain ⟨rfl, rfl⟩ := List.cons.inj heq
    cases splitFirst '=' rest <;> rfl
  · next hne => rw [if_neg fun hc ↦ hne rest (by rw [hc])]

/-- A splitter that only looks behind a character that is no blank. -/
theorem splitsAlike_of_cons {split behind : Text → Option (Text × Text)} (mark : Char)
    (hmark : isBlank mark = false) (hnil : split [] = none)
    (hcons : ∀ c rest, split (c :: rest) = if c = mark then behind rest else none)
    (hbehind : ∀ s t, Respaced s t → SplitsAlike (behind s) (behind t)) (h : Respaced s t) :
    SplitsAlike (split s) (split t) := by
  have hgap {g : Text} (hg : IsGap g) (s : Text) : split (g ++ s) = none := by
    obtain ⟨c, rest, heq, hblank⟩ := hg.exists_cons s
    have hne : c ≠ mark := by
      rintro rfl
      rw [hblank] at hmark
      cases hmark
    rw [heq, hcons, if_neg hne]
  cases h with
  | nil =>
    rw [hnil]
    exact .none
  | char _ rest =>
    rw [hcons, hcons]
    split
    · exact hbehind _ _ rest
    · exact .none
  | gap left right _ =>
    rw [hgap left, hgap right]
    exact .none

theorem splitLabel_respaced (h : Respaced s t) : SplitsAlike (splitLabel s) (splitLabel t) := by
  refine splitsAlike_of_cons '@' (by decide) rfl splitLabel_cons (fun s t h ↦ ?_) h
  refine Option.Rel.bind (h.splitFirst (by decide)) fun p q hpq ↦ ?_
  exact splitsAlike_ite hpq.1 hpq.2.trim _

theorem splitDefinition_respaced (h : Respaced s t) :
    SplitsAlike (splitDefinition s) (splitDefinition t) := by
  refine splitsAlike_of_cons '$' (by decide) rfl splitDefinition_cons (fun s t h ↦ ?_) h
  refine Option.Rel.bind (h.splitFirst (by decide)) fun p q hpq ↦ ?_
  exact splitsAlike_ite hpq.1.trimEnd hpq.2.trim id

/-- Bodies that are the same but for gaps in the expression of a definition. -/
inductive BodiesAlike : Body → Body → Prop where
  | definition {name expression expression' : Text} (respaced : Respaced expression expression') :
      BodiesAlike (.definition name expression) (.definition name expression')
  | instruction (flags : FlagSet) (rest : List Text) :
      BodiesAlike (.instruction flags rest) (.instruction flags rest)

theorem bodyOf_respaced (h : Respaced s t) : BodiesAlike (bodyOf s) (bodyOf t) := by
  have hsplit := splitDefinition_respaced h
  have hnormal : Source.normalize s = Source.normalize t := Source.normalizeFrom_respaced h _ _
  unfold bodyOf
  rw [hnormal]
  generalize splitDefinition s = split at hsplit ⊢
  generalize splitDefinition t = split' at hsplit ⊢
  cases hsplit with
  | none => exact .instruction _ _
  | @some p q hpq =>
    obtain ⟨name, expression⟩ := p
    obtain ⟨name', expression'⟩ := q
    obtain ⟨rfl, hexpression⟩ := hpq
    exact .definition hexpression

/-- The label and the body of a line, from its code. -/
theorem ofText_of_code {line line' : Text} (h : Respaced (Source.code line) (Source.code line')) :
    (ofText line).label = (ofText line').label ∧
      BodiesAlike (ofText line).body (ofText line').body := by
  have hsplit := splitLabel_respaced h
  unfold ofText
  dsimp only
  generalize splitLabel (Source.code line) = split at hsplit ⊢
  generalize splitLabel (Source.code line') = split' at hsplit ⊢
  cases hsplit with
  | none => exact ⟨rfl, bodyOf_respaced h⟩
  | @some p q hpq =>
    obtain ⟨label, rest⟩ := p
    obtain ⟨label', rest'⟩ := q
    obtain ⟨rfl, hrest⟩ := hpq
    exact ⟨rfl, bodyOf_respaced hrest⟩

end Statement

/-! ## Lines -/

/-- The line has this code in it: with blanks around it, and before a comment if there is one. -/
def Source.HasCode (line code : Text) : Prop :=
  ∃ before after comment, line = before ++ code ++ after ++ comment ∧
    (∀ c ∈ before, isBlank c = true) ∧ (∀ c ∈ after, isBlank c = true) ∧ '#' ∉ code ∧
      ∀ c ∈ comment.head?, c = '#'

theorem Source.HasCode.code_eq {line code : Text} (h : HasCode line code) :
    Source.code line = trim code := by
  obtain ⟨before, after, comment, rfl, hbefore, hafter, hmark, hcomment⟩ := h
  have hblank {t : Text} (ht : ∀ c ∈ t, isBlank c = true) : ∀ c ∈ t, c ≠ '#' := by
    rintro c hc rfl
    cases ht '#' hc
  have htext : ∀ c ∈ before ++ code ++ after, decide (c ≠ '#') = true := by
    simp only [decide_eq_true_eq, List.forall_mem_append]
    exact ⟨⟨hblank hbefore, fun c hc heq ↦ hmark (heq ▸ hc)⟩, hblank hafter⟩
  have hend : comment.takeWhile (· ≠ '#') = [] := by
    cases comment with
    | nil => rfl
    | cons c rest => rw [List.takeWhile_cons_of_neg (by simpa using hcomment c rfl)]
  unfold Source.code
  rw [List.takeWhile_append_of_pos htext, hend, List.append_nil, trim_between hbefore hafter]

/-- Lines of one number and one code, but for the layout of the code and for comments. -/
def SourceLine.Relaid (line other : SourceLine) : Prop :=
  line.number = other.number ∧ ∃ code code', Source.HasCode line.text code ∧
    Source.HasCode other.text code' ∧ Respaced code code'

namespace Reader

variable {source other : List SourceLine}

theorem line_relaid {line other : SourceLine} (h : line.Relaid other) (reader : Reader) :
    reader.line line = reader.line other := by
  obtain ⟨hnumber, code, code', hcode, hcode', hrespaced⟩ := h
  have htrim : Respaced (Source.code line.text) (Source.code other.text) := by
    rw [hcode.code_eq, hcode'.code_eq]
    exact hrespaced.trim
  obtain ⟨hlabel, hbody⟩ := Statement.ofText_of_code htrim
  unfold Reader.line
  dsimp only
  rw [hlabel, hnumber]
  generalize (Statement.ofText line.text).body = body at hbody ⊢
  generalize (Statement.ofText other.text).body = body' at hbody ⊢
  cases hbody with
  | definition respaced =>
    dsimp only
    unfold definition
    rw [Constants.evaluate_respaced respaced]
  | instruction flags rest => rfl

theorem lines_relaid (h : List.Forall₂ SourceLine.Relaid source other) (reader : Reader) :
    reader.lines source = reader.lines other := by
  induction h generalizing reader with
  | nil => rfl
  | cons hline _ ih =>
    unfold lines
    rw [line_relaid hline]
    split
    · rfl
    · rw [ih]

/-- Layout has no meaning: where corresponding lines of two sources differ in their gaps, in the
blanks at the ends of their code and in their comments only, reading gives the same commands or the
same failure, the same symbols and constants, and the same report. -/
theorem read_relaid (h : List.Forall₂ SourceLine.Relaid source other) (reader : Reader) :
    reader.read source = reader.read other := by
  have hlast : source.getLast?.map SourceLine.number = other.getLast?.map SourceLine.number := by
    have hnumbers : source.map SourceLine.number = other.map SourceLine.number := by
      induction h with
      | nil => rfl
      | cons hline _ ih => rw [List.map_cons, List.map_cons, hline.1, ih]
    rw [← List.getLast?_map, hnumbers, List.getLast?_map]
  unfold read
  rw [lines_relaid h, hlast]

/-- Other blanks around a label, a definition with wider gaps, and comments that come and go. -/
theorem read_relaid_blanks :
    (Reader.start none).read [⟨1, "@a:  JUMP\t@a   # again".toList⟩,
        ⟨2, "$n =\t3 * 2".toList⟩, ⟨3, "WAIT".toList⟩] =
      (Reader.start none).read [⟨1, "\u3000@a:\u00a0JUMP @a".toList⟩,
        ⟨2, " $n \u2003 = 3 * 2#".toList⟩, ⟨3, "\tWAIT # # ".toList⟩] := by
  have hgap (g : Text) (h : g ≠ [] ∧ g.all isBlank = true) : IsGap g :=
    ⟨h.1, List.all_eq_true.1 h.2⟩
  have hcode (before after comment : Text) {line code : Text}
      (h : line = before ++ code ++ after ++ comment ∧ before.all isBlank = true ∧
        after.all isBlank = true ∧ '#' ∉ code ∧ comment.head?.all (· == '#') = true) :
      Source.HasCode line code := by
    refine ⟨before, after, comment, h.1, List.all_eq_true.1 h.2.1, List.all_eq_true.1 h.2.2.1,
      h.2.2.2.1, fun c hc ↦ ?_⟩
    simpa [Option.mem_def.1 hc] using h.2.2.2.2
  have hlabel : Respaced ("@a:".toList ++ ("  ".toList ++ ("JUMP".toList ++ ("\t".toList ++
      "@a".toList)))) ("@a:".toList ++ ("\u00a0".toList ++ ("JUMP".toList ++ (" ".toList ++
      "@a".toList)))) :=
    (Respaced.refl _).append (.gap (hgap _ (by decide)) (hgap _ (by decide))
      ((Respaced.refl _).append (.gap (hgap _ (by decide)) (hgap _ (by decide)) (.refl _))))
  have hdefinition : Respaced ("$n".toList ++ (" ".toList ++ ("=".toList ++ ("\t".toList ++
      "3 * 2".toList)))) ("$n".toList ++ (" \u2003 ".toList ++ ("=".toList ++ (" ".toList ++
      "3 * 2".toList)))) :=
    (Respaced.refl _).append (.gap (hgap _ (by decide)) (hgap _ (by decide))
      ((Respaced.refl _).append (.gap (hgap _ (by decide)) (hgap _ (by decide)) (.refl _))))
  apply read_relaid
  refine .cons ⟨rfl, _, _, ?_, ?_, hlabel⟩ (.cons ⟨rfl, _, _, ?_, ?_, hdefinition⟩
    (.cons ⟨rfl, _, _, ?_, ?_, .refl "WAIT".toList⟩ .nil))
  · exact hcode [] "   ".toList "# again".toList (by decide)
  · exact hcode "\u3000".toList [] [] (by decide)
  · exact hcode [] [] [] (by decide)
  · exact hcode " ".toList [] "#".toList (by decide)
  · exact hcode [] [] [] (by decide)
  · exact hcode "\t".toList " ".toList "# # ".toList (by decide)

end Reader

end Sequencer
