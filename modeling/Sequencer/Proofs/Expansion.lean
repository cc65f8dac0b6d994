import Mathlib
import Sequencer.Files.Variables
import Sequencer.Proofs.Table
import Sequencer.Proofs.Text

/-!
# What the references of a text become

A text falls into pieces from left to right: characters that stand for themselves, names in braces
and bare names behind dollar signs. Which pieces these are is told by the text alone, and together
they are the text. Expansion puts the value of its variable in the place of each reference to one
that is set, and keeps every other piece as it is written. So no value is looked at again, whatever
dollar signs it has in it.

An environment holds each variable as its name, an equals sign and its value. No name has an equals
sign in it, but a name in braces may: it is then found in the value of another variable.
-/

namespace Sequencer.Variables

inductive Piece where
  | plain (c : Char)
  | braced (name : Text)
  | bare (name : Text)
deriving DecidableEq

namespace Piece

def written : Piece → Text
  | plain c => [c]
  | braced name => '$' :: '\x7b' :: (name ++ ['\x7d'])
  | bare name => '$' :: name

/-- The name that a piece refers to, if it is a reference. -/
def name? : Piece → Option Text
  | plain _ => none
  | braced name => some name
  | bare name => some name

/-- A reference gives way to the value of its variable, if its name is not empty and set. -/
def expanded (lookup : Text → Option Text) (piece : Piece) : Text :=
  match piece.name? with
  | some name => if name = [] then piece.written else (lookup name).getD piece.written
  | none => piece.written

end Piece

/-- What a dollar sign makes with the text behind it, and what is left of that text. A name in
braces goes up to the first closing brace, and a bare one is as long as it can be. A dollar sign
with neither stands for itself. -/
inductive Refers : Text → Piece → Text → Prop where
  | braced {name rest : Text} : '\x7d' ∉ name →
    Refers ('\x7b' :: (name ++ '\x7d' :: rest)) (.braced name) rest
  | unclosed {rest : Text} : '\x7d' ∉ rest → Refers ('\x7b' :: rest) (.plain '$') ('\x7b' :: rest)
  | bare {name rest : Text} : name ≠ [] → (∀ c ∈ name, Text.isWord c = true) →
    (∀ c ∈ rest.head?, Text.isWord c = false) → Refers (name ++ rest) (.bare name) rest
  | lone {rest : Text} : (∀ c ∈ rest.head?, c ≠ '\x7b' ∧ Text.isWord c = false) →
    Refers rest (.plain '$') rest

/-- The pieces that a text falls into. -/
inductive Scans : Text → List Piece → Prop where
  | nil : Scans [] []
  | plain {c : Char} {rest : Text} {pieces : List Piece} :
    c ≠ '$' → Scans rest pieces → Scans (c :: rest) (.plain c :: pieces)
  | dollar {after rest : Text} {piece : Piece} {pieces : List Piece} :
    Refers after piece rest → Scans rest pieces → Scans ('$' :: after) (piece :: pieces)

/-! ## References -/

section

variable {after rest : Text} {piece : Piece}

/-- A piece takes from the text behind its dollar sign what it is written with, and leaves the
rest. -/
theorem Refers.exists_tail (h : Refers after piece rest) :
    ∃ tail, piece.written = '$' :: tail ∧ after = tail ++ rest := by
  cases h with
  | @braced name => exact ⟨'\x7b' :: (name ++ ['\x7d']), rfl, by simp⟩
  | unclosed => exact ⟨[], rfl, rfl⟩
  | bare => exact ⟨_, rfl, rfl⟩
  | lone => exact ⟨[], rfl, rfl⟩

theorem Refers.append_eq (h : Refers after piece rest) : '$' :: after = piece.written ++ rest := by
  obtain ⟨tail, htail, rfl⟩ := h.exists_tail
  rw [htail, List.cons_append]

theorem reference_of_head (h : ∀ c ∈ after.head?, c ≠ '\x7b') :
    reference after = (after.takeWhile Text.isWord, (after.takeWhile Text.isWord).length) := by
  unfold reference
  split
  · simp at h
  · rfl

theorem reference_unclosed (h : '\x7d' ∉ rest) : reference ('\x7b' :: rest) = ([], 0) := by
  simp [reference, Text.splitFirst_eq_none h]

/-- The name and the length that are found behind a dollar sign are those of the piece. -/
theorem Refers.reference_eq (h : Refers after piece rest) :
    reference after = (piece.name?.getD [], piece.written.tail.length) := by
  cases h with
  | braced hname => simp [reference, Text.splitFirst_append hname, Piece.name?, Piece.written]
  | unclosed hrest => rw [reference_unclosed hrest]; rfl
  | @bare name _ hne hword hrest =>
    have hspan := (Text.span_append name rest hword hrest).1
    rw [reference_of_head, hspan]
    · rfl
    · obtain ⟨c, more, rfl⟩ := List.exists_cons_of_ne_nil hne
      have hbrace : Text.isWord '\x7b' = false := by decide
      simpa using Text.ne_of_isWord (hword c List.mem_cons_self) hbrace
  | lone hrest =>
    have hspan := (Text.span_append [] after (by simp) fun c hc ↦ (hrest c hc).2).1
    rw [List.nil_append] at hspan
    rw [reference_of_head fun c hc ↦ (hrest c hc).1, hspan]
    rfl

/-- The piece of a reference with this name and length. -/
def Piece.ofReference : Text × ℕ → Piece
  | ([], 0) => .plain '$'
  | (name, length) => if length = name.length then .bare name else .braced name

theorem Refers.piece_eq (h : Refers after piece rest) : piece = .ofReference (reference after) := by
  rw [h.reference_eq]
  cases h with
  | @braced name =>
    have hlonger : name.length + 1 + 1 ≠ name.length := by omega
    simp [Piece.ofReference, Piece.name?, Piece.written, hlonger]
  | unclosed => rfl
  | bare hne =>
    obtain ⟨c, more, rfl⟩ := List.exists_cons_of_ne_nil hne
    simp [Piece.ofReference, Piece.name?, Piece.written]
  | lone => rfl

theorem Refers.unique {other : Piece} {left : Text} (h : Refers after piece rest)
    (h' : Refers after other left) : piece = other ∧ rest = left := by
  obtain rfl : piece = other := h.piece_eq.trans h'.piece_eq.symm
  exact ⟨rfl, List.append_cancel_left (h.append_eq.symm.trans h'.append_eq)⟩

theorem exists_refers (after : Text) : ∃ piece rest, Refers after piece rest := by
  by_cases hbrace : after.head? = some '\x7b'
  · obtain ⟨more, rfl⟩ := List.head?_eq_some_iff.1 hbrace
    by_cases hclosed : '\x7d' ∈ more
    · obtain ⟨name, rest, rfl, hname⟩ := List.eq_append_cons_of_mem hclosed
      exact ⟨_, _, .braced hname⟩
    · exact ⟨_, _, .unclosed hclosed⟩
  · have hstop : ∀ c ∈ (after.dropWhile Text.isWord).head?, Text.isWord c = false := by
      intro c hc
      have hnot := List.head?_dropWhile_not Text.isWord after
      rwa [Option.mem_def.1 hc] at hnot
    by_cases hword : after.takeWhile Text.isWord = []
    · rw [← List.takeWhile_append_dropWhile (p := Text.isWord) (l := after), hword,
        List.nil_append] at hbrace ⊢
      exact ⟨_, _, .lone fun c hc ↦ ⟨by rintro rfl; exact hbrace hc, hstop c hc⟩⟩
    · rw [← List.takeWhile_append_dropWhile (p := Text.isWord) (l := after)]
      exact ⟨_, _, .bare hword (fun c ↦ List.mem_takeWhile_imp) hstop⟩

end

/-! ## Pieces -/

section

variable {text : Text} {pieces other : List Piece}

theorem Scans.unique (h : Scans text pieces) (h' : Scans text other) : other = pieces := by
  induction h generalizing other with
  | nil => cases h' with
    | nil => rfl
  | plain hc _ ih =>
    cases h' with
    | plain _ hrest => rw [ih hrest]
    | dollar => exact absurd rfl hc
  | dollar hrefers _ ih =>
    cases h' with
    | plain hc => exact absurd rfl hc
    | dollar hrefers' hrest =>
      obtain ⟨rfl, rfl⟩ := hrefers.unique hrefers'
      rw [ih hrest]

theorem exists_scans (text : Text) : ∃ pieces, Scans text pieces := by
  -- a reference is taken off as a whole, so the induction is on the length of what is left
  induction hlength : text.length using Nat.strong_induction_on generalizing text with
  | _ length ih =>
    subst hlength
    obtain _ | ⟨c, after⟩ := text
    · exact ⟨[], .nil⟩
    · by_cases hc : c = '$'
      · subst hc
        obtain ⟨piece, rest, hrefers⟩ := exists_refers after
        have hlt : rest.length < ('$' :: after).length := by
          obtain ⟨tail, -, rfl⟩ := hrefers.exists_tail
          rw [List.length_cons, List.length_append]
          omega
        obtain ⟨pieces, hpieces⟩ := ih rest.length hlt rest rfl
        exact ⟨piece :: pieces, .dollar hrefers hpieces⟩
      · obtain ⟨pieces, hpieces⟩ := ih after.length (by simp) after rfl
        exact ⟨.plain c :: pieces, .plain hc hpieces⟩

theorem Scans.flatMap_written (h : Scans text pieces) : pieces.flatMap Piece.written = text := by
  induction h with
  | nil => rfl
  | plain _ _ ih =>
    rw [List.flatMap_cons, ih]
    rfl
  | dollar hrefers _ ih => rw [List.flatMap_cons, ih, hrefers.append_eq]

end

/-! ## Expansion -/

section

variable {lookup : Text → Option Text}

theorem expandAfter_append (front rest : Text) :
    expandAfter lookup front.length (front ++ rest) = expand lookup rest := by
  induction front with
  | nil => rfl
  | cons c front ih => exact ih

theorem expand_plain {c : Char} (hc : c ≠ '$') (rest : Text) :
    expand lookup (c :: rest) = c :: expand lookup rest := by
  rw [expand, expandAfter]
  · rfl
  · exact hc

theorem Piece.expanded_eq (piece : Piece) :
    piece.expanded lookup = (value? lookup (piece.name?.getD [])).getD piece.written := by
  unfold expanded value?
  cases piece.name? with
  | none => rfl
  | some name =>
    by_cases hname : name = [] <;> simp [hname]

/-- A reference is expanded once, and then what is left of the text. -/
theorem expand_dollar {after rest : Text} {piece : Piece} (h : Refers after piece rest) :
    expand lookup ('$' :: after) = piece.expanded lookup ++ expand lookup rest := by
  have hreference := h.reference_eq
  obtain ⟨tail, htail, rfl⟩ := h.exists_tail
  rw [htail, List.tail_cons] at hreference
  rw [Piece.expanded_eq, htail, expand, expandAfter, hreference]
  dsimp only
  rw [expandAfter_append]
  cases value? lookup (piece.name?.getD []) with
  | none => simp
  | some value => rfl

theorem Scans.expand_eq {text : Text} {pieces : List Piece} (h : Scans text pieces) :
    expand lookup text = pieces.flatMap (Piece.expanded lookup) := by
  induction h with
  | nil => rfl
  | plain hc _ ih =>
    rw [expand_plain hc, ih]
    rfl
  | dollar hrefers _ ih => rw [expand_dollar hrefers, ih, List.flatMap_cons]

theorem Piece.expanded_of_unset {piece : Piece}
    (h : ∀ name, piece.name? = some name → name ≠ [] → lookup name = none) :
    piece.expanded lookup = piece.written := by
  unfold expanded
  split
  · next name hname =>
    split
    · rfl
    · next hne => rw [h name hname hne, Option.getD_none]
  · rfl

end

/-! ## Variables -/

/-- Values for the variables of a process, none of which has an equals sign in its name. -/
structure Assignment where
  values : Table Text
  names_plain : ∀ name ∈ values.keys, '=' ∉ name

/-- Names up to an equals sign are compared as a whole. -/
theorem isPrefixOf?_equals {front name : Text} (hfront : '=' ∉ front) (hname : '=' ∉ name)
    (rest value : Text) :
    (front ++ '=' :: rest).isPrefixOf? (name ++ '=' :: value) =
      if front = name then rest.isPrefixOf? value else none := by
  induction front generalizing name with
  | nil =>
    cases name with
    | nil => simp [List.isPrefixOf?]
    | cons d name =>
      rw [List.mem_cons, not_or] at hname
      simp [List.isPrefixOf?, hname.1]
  | cons c front ih =>
    rw [List.mem_cons, not_or] at hfront
    cases name with
    | nil => simp [List.isPrefixOf?, Ne.symm hfront.1]
    | cons d name =>
      rw [List.mem_cons, not_or] at hname
      rw [List.cons_append, List.cons_append, List.isPrefixOf?, ih hfront.2 hname.2]
      by_cases hc : c = d <;> simp [hc]

namespace Assignment

def environment (assigned : Assignment) : Environment :=
  assigned.values.entries.map fun entry ↦ entry.1 ++ '=' :: entry.2

/-- What a name is taken for. Up to its first equals sign it is the name of a variable. What comes
behind that sign has to be the start of the value, up to an equals sign there, and the rest of the
value is taken. -/
def read (assigned : Assignment) (name : Text) : Option Text :=
  match Text.splitFirst '=' name with
  | none => assigned.values.get? name
  | some (front, back) => (assigned.values.get? front).bind (back ++ ['=']).isPrefixOf?

variable (assigned : Assignment)

theorem findSome?_environment {front : Text} (hfront : '=' ∉ front) (rest : Text) :
    assigned.environment.findSome? (front ++ '=' :: rest).isPrefixOf? =
      (assigned.values.get? front).bind rest.isPrefixOf? := by
  rw [environment, List.findSome?_map]
  apply Table.findSome?_entries
  intro entry hmem
  exact isPrefixOf?_equals hfront (assigned.names_plain _ (List.mem_map_of_mem hmem)) _ _

theorem read_of_plain {name : Text} (h : '=' ∉ name) :
    assigned.read name = assigned.values.get? name := by
  rw [read, Text.splitFirst_eq_none h]

theorem get?_environment (name : Text) :
    assigned.environment.get? name = assigned.read name := by
  unfold Environment.get?
  by_cases hname : '=' ∈ name
  · obtain ⟨front, back, rfl, hfront⟩ := List.eq_append_cons_of_mem hname
    rw [List.append_assoc, List.cons_append, assigned.findSome?_environment hfront, read,
      Text.splitFirst_append hfront]
  · rw [assigned.findSome?_environment hname, assigned.read_of_plain hname]
    cases assigned.values.get? name <;> rfl

end Assignment

theorem Piece.expanded_congr {piece : Piece} {lookup other : Text → Option Text}
    (h : ∀ name, piece.name? = some name → lookup name = other name) :
    piece.expanded lookup = piece.expanded other := by
  unfold expanded
  cases hname : piece.name? with
  | none => rfl
  | some name => simp only [h name hname]

/-- A name is a part of what its reference is written with. -/
theorem Piece.mem_written {piece : Piece} {name : Text} (h : piece.name? = some name) {c : Char}
    (hc : c ∈ name) : c ∈ piece.written := by
  cases piece with
  | plain => cases h
  | braced => cases h; simp [written, hc]
  | bare => cases h; simp [written, hc]

/-- Expansion substitutes once and keeps the rest. Each text falls into pieces in one way, which the
environment has no part in, and the pieces side by side are the text. Expansion replaces each
reference whose name is not empty by what the name is taken for, if it is taken for anything, and
keeps every other piece as it is written. Where no name has an equals sign in it, that is the value
of the variable with this name if it is set, and where none is set nothing is changed. -/
theorem expand_substitutes (text : Text) :
    ∃ pieces, Scans text pieces ∧ (∀ other, Scans text other → other = pieces) ∧
      pieces.flatMap Piece.written = text ∧
      ∀ assigned : Assignment,
        expand assigned.environment.get? text = pieces.flatMap (Piece.expanded assigned.read) ∧
        ((∀ piece ∈ pieces, ∀ name, piece.name? = some name → '=' ∉ name) →
          expand assigned.environment.get? text =
              pieces.flatMap (Piece.expanded assigned.values.get?) ∧
            ((∀ piece ∈ pieces, ∀ name, piece.name? = some name → name ≠ [] →
                assigned.values.get? name = none) →
              expand assigned.environment.get? text = text)) := by
  obtain ⟨pieces, hpieces⟩ := exists_scans text
  refine ⟨pieces, hpieces, fun other hother ↦ hpieces.unique hother, hpieces.flatMap_written,
    fun assigned ↦ ?_⟩
  have hread : expand assigned.environment.get? text =
      pieces.flatMap (Piece.expanded assigned.read) := by
    rw [hpieces.expand_eq, funext assigned.get?_environment]
  refine ⟨hread, fun hplain ↦ ?_⟩
  have hvalues : expand assigned.environment.get? text =
      pieces.flatMap (Piece.expanded assigned.values.get?) := by
    rw [hread]
    apply List.flatMap_congr
    intro piece hmem
    apply Piece.expanded_congr
    intro name hname
    exact assigned.read_of_plain (hplain piece hmem name hname)
  refine ⟨hvalues, fun hunset ↦ ?_⟩
  calc
    expand assigned.environment.get? text =
        pieces.flatMap (Piece.expanded assigned.values.get?) := hvalues
    _ = pieces.flatMap Piece.written :=
      List.flatMap_congr fun piece hmem ↦ Piece.expanded_of_unset (hunset piece hmem)
    _ = text := hpieces.flatMap_written

/-- A value with references in it, names in braces that are empty, unset and with a reference in
them, a dollar sign in front of another, a longer name than the one that is set, and a brace that is
not closed. Without variables the text stays as it is. -/
theorem expand_substitutes_mixed :
    ∃ (assigned empty : Assignment) (text : Text) (pieces : List Piece),
      assigned.values.entries = [("A".toList, "$B".toList), ("B".toList, "x".toList)] ∧
      empty.values = .empty ∧
      text = "$A/$\x7bB\x7d$\x7b\x7d$\x7bC$A\x7d$$A_ $\x7bA".toList ∧ Scans text pieces ∧
      pieces.flatMap (Piece.expanded assigned.values.get?) =
        "$B/x$\x7b\x7d$\x7bC$A\x7d$$A_ $\x7bA".toList ∧
      expand empty.environment.get? text = text := by
  let assigned : Assignment :=
    { values := { entries := [("A".toList, "$B".toList), ("B".toList, "x".toList)]
                  ordered := by decide }
      names_plain := by decide }
  let empty : Assignment := { values := .empty, names_plain := by simp [Table.keys, Table.empty] }
  have hexpanded : expand assigned.environment.get?
      "$A/$\x7bB\x7d$\x7b\x7d$\x7bC$A\x7d$$A_ $\x7bA".toList =
        "$B/x$\x7b\x7d$\x7bC$A\x7d$$A_ $\x7bA".toList := by
    decide +kernel
  have hequals : '=' ∉ "$A/$\x7bB\x7d$\x7b\x7d$\x7bC$A\x7d$$A_ $\x7bA".toList := by
    decide +kernel
  generalize "$A/$\x7bB\x7d$\x7b\x7d$\x7bC$A\x7d$$A_ $\x7bA".toList = text at hexpanded hequals ⊢
  obtain ⟨pieces, hpieces, -, hwritten, hexpand⟩ := expand_substitutes text
  have hplain : ∀ piece ∈ pieces, ∀ name, piece.name? = some name → '=' ∉ name := by
    intro piece hmem name hname hc
    apply hequals
    rw [← hwritten]
    exact List.mem_flatMap.2 ⟨piece, hmem, Piece.mem_written hname hc⟩
  refine ⟨assigned, empty, text, pieces, rfl, rfl, rfl, hpieces, ?_, ?_⟩
  · exact ((hexpand assigned).2 hplain).1.symm.trans hexpanded
  · exact ((hexpand empty).2 hplain).2 fun _ _ _ _ _ ↦ rfl

/-- A name that no variable has is not kept: with an equals sign in it, it is found in the value of
a variable, and the rest of that value takes its place. -/
theorem expand_unset_name_with_equals_sign :
    ∃ (assigned : Assignment) (text name : Text),
      assigned.values.entries = [("A".toList, "B=C=D".toList)] ∧
      name = "A=B".toList ∧ text = "$\x7bA=B\x7d".toList ∧
      Scans text [.braced name] ∧ assigned.values.get? name = none ∧
      [Piece.braced name].flatMap (Piece.expanded assigned.values.get?) = text ∧
      expand assigned.environment.get? text = "C=D".toList ∧ text ≠ "C=D".toList := by
  let assigned : Assignment :=
    { values := { entries := [("A".toList, "B=C=D".toList)] }
      names_plain := by decide }
  have htext : "$\x7bA=B\x7d".toList = '$' :: '\x7b' :: ("A=B".toList ++ ['\x7d']) := by
    decide +kernel
  have hname : '\x7d' ∉ "A=B".toList := by decide
  refine ⟨assigned, "$\x7bA=B\x7d".toList, "A=B".toList, rfl, rfl, rfl, ?_, by decide +kernel,
    by decide +kernel, by decide +kernel, by decide +kernel⟩
  rw [htext]
  exact .dollar (.braced hname) .nil

end Sequencer.Variables
