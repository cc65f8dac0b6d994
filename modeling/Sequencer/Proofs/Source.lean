import Mathlib
import Sequencer.Source.Statement
import Sequencer.Proofs.Flag
import Sequencer.Proofs.Text

/-!
# Lines made of words

In a line that holds no operators, normalization changes blanks only, and no token is joined to
another. Such a line is taken apart into the words that it was made of, and after a label and flag
letters it is an instruction.
-/

namespace Sequencer

namespace Source

/-! ## Tokens -/

section

variable {c d : Char} {rest : Text}

theorem tokens_cons_of_separator (h : isSeparator c = true) : tokens (c :: rest) = tokens rest := by
  unfold tokens
  rw [Text.runs, if_pos h]

/-- A character before a separator or the end is a token of its own. -/
theorem tokens_cons_of_end (hc : isSeparator c = false)
    (hrest : ∀ d ∈ rest.head?, isSeparator d = true) : tokens (c :: rest) = [c] :: tokens rest := by
  unfold tokens
  rw [Text.runs, if_neg (by simp [hc])]
  split
  · next d run more hhead hruns =>
    rw [if_neg (by simp [hrest d hhead]), hruns]
  · rfl

theorem tokens_ne_nil (hc : isSeparator c = false) : tokens (c :: rest) ≠ [] := by
  unfold tokens
  rw [Text.runs, if_neg (by simp [hc])]
  split
  · split <;> simp
  · simp

/-- A character before another that is no separator belongs to the same token. -/
theorem tokens_cons_cons (hc : isSeparator c = false) (hd : isSeparator d = false) :
    tokens (c :: d :: rest) = (tokens (d :: rest)).modifyHead (c :: ·) := by
  have hne : tokens (d :: rest) ≠ [] := tokens_ne_nil hd
  obtain ⟨run, more, hruns⟩ := List.exists_cons_of_ne_nil hne
  unfold tokens at hruns ⊢
  rw [Text.runs, if_neg (by simp [hc]), hruns]
  simp [hd]

/-- A word before a separator or the end is a token. -/
theorem tokens_append {word : Text} (hne : word ≠ []) (hword : ∀ c ∈ word, isSeparator c = false)
    (hrest : ∀ d ∈ rest.head?, isSeparator d = true) :
    tokens (word ++ rest) = word :: tokens rest := by
  induction word with
  | nil => exact absurd rfl hne
  | cons c more ih =>
    rw [List.forall_mem_cons] at hword
    cases more with
    | nil => exact tokens_cons_of_end hword.1 hrest
    | cons d more =>
      have htail := ih (List.cons_ne_nil _ _) hword.2
      rw [List.cons_append] at htail
      rw [List.cons_append, List.cons_append,
        tokens_cons_cons hword.1 (hword.2 d List.mem_cons_self), htail, List.modifyHead_cons]

end

/-! ## Normalization -/

/-- Text made of words, spaces, commas and at signs. -/
def IsPlain (text : Text) : Prop :=
  ∀ c ∈ text, Text.isWord c = true ∨ c = ' ' ∨ c = ',' ∨ c = '@'

theorem IsPlain.append {a b : Text} (ha : IsPlain a) (hb : IsPlain b) : IsPlain (a ++ b) :=
  fun c hmem ↦ (List.mem_append.1 hmem).elim (ha c) (hb c)

/-- Of the characters that swallow blanks, a plain text has at most commas. -/
theorem not_mem_joins {c : Char} (hplain : Text.isWord c = true ∨ c = ' ' ∨ c = ',' ∨ c = '@')
    (hcomma : c ≠ ',') : c ∉ joinAfter ∧ c ∉ joinBefore := by
  have hmarks : (joinAfter ++ joinBefore).all (fun mark ↦ !Text.isWord mark) = true := by decide
  rw [← not_or, ← List.mem_append]
  intro hmem
  rcases hplain with hc | rfl | rfl | rfl
  · have hmark := List.all_eq_true.1 hmarks c hmem
    simp [hc] at hmark
  · revert hmem
    decide
  · exact hcomma rfl
  · revert hmem
    decide

theorem isSeparator_of_isBlank {c : Char} (h : Text.isBlank c = true) : isSeparator c = true := by
  simp [isSeparator, h]

theorem isBlank_of_isSeparator {c : Char} (h : isSeparator c = false) : Text.isBlank c = false := by
  simp only [isSeparator, Bool.or_eq_false_iff] at h
  exact h.2

theorem isSeparator_of_isWord {c : Char} (h : Text.isWord c = true) : isSeparator c = false := by
  have hcomma : c ≠ ',' := Text.ne_of_isWord h (by decide)
  simp [isSeparator, Text.isBlank_of_isWord h, hcomma]

/-- After a word, normalization goes on with a separator if one follows. -/
theorem isSeparator_head_normalizeFrom {c : Char} (hc : c ∉ joinAfter) {rest : Text}
    (hrest : IsPlain rest) {gap : Bool}
    (hhead : gap = true ∨ ∀ d ∈ rest.head?, isSeparator d = true) :
    ∀ d ∈ (normalizeFrom (some c) gap rest).head?, isSeparator d = true := by
  induction rest generalizing gap with
  | nil => simp [normalizeFrom]
  | cons e rest ih =>
    rw [IsPlain, List.forall_mem_cons] at hrest
    by_cases hblank : Text.isBlank e
    · rw [normalizeFrom, if_pos hblank]
      exact ih hrest.2 (.inl rfl)
    · rw [normalizeFrom, if_neg hblank]
      split
      · simp [isSeparator_of_isBlank (show Text.isBlank ' ' = true by decide)]
      · next hkeeps =>
        rintro d ⟨⟩
        rcases hhead with rfl | hhead
        · -- Only an operator swallows the gap, and the one plain operator is the comma.
          by_contra hword
          have hcomma : e ≠ ',' := by
            rintro rfl
            exact hword (by decide)
          exact hkeeps (by simp [keepsGap, hc, (not_mem_joins hrest.1 hcomma).2])
        · exact hhead e rfl

/-- Normalizing a plain text does not change its tokens. -/
theorem tokens_normalizeFrom {text : Text} (h : IsPlain text) (last : Option Char) (gap : Bool) :
    tokens (normalizeFrom last gap text) = tokens text := by
  induction text generalizing last gap with
  | nil => rfl
  | cons c rest ih =>
    rw [IsPlain, List.forall_mem_cons] at h
    by_cases hblank : Text.isBlank c
    · rw [normalizeFrom, if_pos hblank, ih h.2,
        tokens_cons_of_separator (isSeparator_of_isBlank hblank)]
    · have hkept : tokens (c :: normalizeFrom (some c) false rest) = tokens (c :: rest) := by
        by_cases hc : isSeparator c
        · rw [tokens_cons_of_separator hc, tokens_cons_of_separator hc, ih h.2]
        replace hc : isSeparator c = false := by simpa using hc
        have hcomma : c ≠ ',' := by
          rintro rfl
          simp [isSeparator] at hc
        have hjoin := (not_mem_joins h.1 hcomma).1
        by_cases hend : ∀ d ∈ rest.head?, isSeparator d = true
        · rw [tokens_cons_of_end hc hend, tokens_cons_of_end hc
            (isSeparator_head_normalizeFrom hjoin h.2 (.inr hend)), ih h.2]
        · cases rest with
          | nil => simp at hend
          | cons d rest =>
            replace hend : isSeparator d = false := by simpa using hend
            have hstep : normalizeFrom (some c) false (d :: rest) =
                d :: normalizeFrom (some d) false rest := by
              rw [normalizeFrom, if_neg (by simp [isBlank_of_isSeparator hend])]
              rfl
            have htail := ih h.2 (some c) false
            rw [hstep] at htail
            rw [hstep, tokens_cons_cons hc hend, tokens_cons_cons hc hend, htail]
      rw [normalizeFrom, if_neg hblank]
      split
      · rw [tokens_cons_of_separator (by decide), hkept]
      · exact hkept

theorem tokens_normalize {text : Text} (h : IsPlain text) : tokens (normalize text) = tokens text :=
  tokens_normalizeFrom h none false

/-- A line without a comment and without blanks at its ends is all code. -/
theorem code_eq_self {line : Text} (hmark : '#' ∉ line)
    (hhead : ∀ c ∈ line.head?, Text.isBlank c = false)
    (hlast : ∀ c ∈ line.getLast?, Text.isBlank c = false) : code line = line := by
  have hall : line.takeWhile (· ≠ '#') = line := by
    refine List.takeWhile_eq_self_iff.2 fun c hmem ↦ decide_eq_true ?_
    rintro rfl
    exact hmark hmem
  rw [code, hall, Text.trim_of_ends hhead hlast]

/-! ## Phrases -/

/-- A word, or a label with its at sign. -/
def IsToken (token : Text) : Prop := token ≠ [] ∧ ∀ c ∈ token, Text.isWord c = true ∨ c = '@'

section

variable {token head : Text} {operands : List Text}

theorem IsToken.isPlain (h : IsToken token) : IsPlain token :=
  fun c hmem ↦ (h.2 c hmem).imp_right fun hc ↦ .inr (.inr hc)

theorem IsToken.isSeparator_eq_false (h : IsToken token) : ∀ c ∈ token, isSeparator c = false := by
  intro c hmem
  rcases h.2 c hmem with hword | rfl
  · exact isSeparator_of_isWord hword
  · decide

theorem IsToken.isBlank_eq_false (h : IsToken token) : ∀ c ∈ token, Text.isBlank c = false :=
  fun c hmem ↦ isBlank_of_isSeparator (h.isSeparator_eq_false c hmem)

theorem IsToken.tokens_eq (h : IsToken token) : tokens token = [token] := by
  have hlast : tokens (token ++ []) = token :: tokens [] :=
    tokens_append h.1 h.isSeparator_eq_false (by simp)
  rw [List.append_nil] at hlast
  exact hlast

/-- An opcode with its operands: a space between them, and commas between operands. -/
def phrase (head : Text) : List Text → Text
  | [] => head
  | operands => head ++ ' ' :: Text.join ", ".toList operands

theorem isPlain_join (h : ∀ token ∈ operands, IsToken token) :
    IsPlain (Text.join ", ".toList operands) := by
  induction operands with
  | nil => simp [IsPlain, Text.join]
  | cons token more ih =>
    rw [List.forall_mem_cons] at h
    cases more with
    | nil => exact h.1.isPlain
    | cons next more =>
      have hcomma : IsPlain ", ".toList := by simp [IsPlain]
      exact (h.1.isPlain.append hcomma).append (ih h.2)

theorem tokens_join (h : ∀ token ∈ operands, IsToken token) :
    tokens (Text.join ", ".toList operands) = operands := by
  induction operands with
  | nil => rfl
  | cons token more ih =>
    rw [List.forall_mem_cons] at h
    have hword := h.1.isSeparator_eq_false
    cases more with
    | nil => exact h.1.tokens_eq
    | cons next more =>
      have hcomma : isSeparator ',' = true := by decide
      rw [Text.join, List.append_assoc]
      change tokens (token ++ ',' :: ' ' :: Text.join ", ".toList (next :: more)) = _
      rw [tokens_append h.1.1 hword (by simp [hcomma]), tokens_cons_of_separator hcomma,
        tokens_cons_of_separator (by decide), ih h.2]
      · exact List.cons_ne_nil _ _

/-- A phrase is taken apart into the words it was made of. -/
theorem tokens_phrase (hhead : IsToken head) (hoperands : ∀ token ∈ operands, IsToken token) :
    tokens (phrase head operands) = head :: operands := by
  have hword := hhead.isSeparator_eq_false
  cases operands with
  | nil => exact hhead.tokens_eq
  | cons token more =>
    have hspace : isSeparator ' ' = true := by decide
    rw [phrase, tokens_append hhead.1 hword (by simp [hspace]), tokens_cons_of_separator hspace,
      tokens_join hoperands]
    · exact List.cons_ne_nil _ _

theorem isPlain_phrase (hhead : IsToken head) (hoperands : ∀ token ∈ operands, IsToken token) :
    IsPlain (phrase head operands) := by
  cases operands with
  | nil => exact hhead.isPlain
  | cons token more =>
    have hspace : IsPlain [' '] := by simp [IsPlain]
    exact hhead.isPlain.append (hspace.append (isPlain_join hoperands))

theorem head?_phrase (hhead : IsToken head) (operands : List Text) :
    (phrase head operands).head? = head.head? := by
  cases operands with
  | nil => rfl
  | cons token more =>
    rw [phrase, List.head?_append_of_ne_nil _ hhead.1]
    exact List.cons_ne_nil _ _

theorem getLast?_join (hne : operands ≠ []) (h : ∀ token ∈ operands, IsToken token) :
    ∃ c, (Text.join ", ".toList operands).getLast? = some c ∧ Text.isBlank c = false := by
  induction operands with
  | nil => exact absurd rfl hne
  | cons token more ih =>
    rw [List.forall_mem_cons] at h
    cases more with
    | nil =>
      have hlast := List.getLast?_eq_some_getLast h.1.1
      exact ⟨_, hlast, h.1.isBlank_eq_false _ (List.getLast_mem h.1.1)⟩
    | cons next more =>
      obtain ⟨c, hc, hblank⟩ := ih (List.cons_ne_nil next more) h.2
      refine ⟨c, ?_, hblank⟩
      rw [Text.join, List.getLast?_append, hc]
      · rfl
      · exact List.cons_ne_nil _ _

theorem getLast?_phrase (hhead : IsToken head) (hoperands : ∀ token ∈ operands, IsToken token) :
    ∃ c, (phrase head operands).getLast? = some c ∧ Text.isBlank c = false := by
  cases operands with
  | nil =>
    exact ⟨_, List.getLast?_eq_some_getLast hhead.1,
      hhead.isBlank_eq_false _ (List.getLast_mem hhead.1)⟩
  | cons token more =>
    obtain ⟨c, hc, hblank⟩ := getLast?_join (List.cons_ne_nil token more) hoperands
    refine ⟨c, ?_, hblank⟩
    rw [phrase, List.getLast?_append, List.getLast?_cons, hc]
    · rfl
    · exact List.cons_ne_nil _ _

end

/-- Letters that are each followed by a space are tokens. -/
theorem tokens_letters {letters : Text} (h : ∀ letter ∈ letters, isSeparator letter = false)
    (rest : Text) :
    tokens (letters.flatMap (fun letter ↦ [letter, ' ']) ++ rest) =
      letters.map (fun letter ↦ [letter]) ++ tokens rest := by
  induction letters with
  | nil => rfl
  | cons letter more ih =>
    rw [List.forall_mem_cons] at h
    have hspace : isSeparator ' ' = true := by decide
    rw [List.flatMap_cons, List.append_assoc, List.cons_append, List.cons_append, List.nil_append,
      tokens_cons_of_end h.1 (by simp [hspace]), tokens_cons_of_separator hspace, ih h.2,
      List.map_cons, List.cons_append]

end Source

namespace Statement

open Source

theorem splitFlags_append {letters : Text}
    (hknown : ∀ letter ∈ letters, Flag.ofLetter? letter ≠ none) {rest : List Text}
    (hrest : splitFlags rest = (.empty, rest)) :
    splitFlags (letters.map (fun letter ↦ [letter]) ++ rest) = (.ofLetters letters, rest) := by
  induction letters with
  | nil => exact hrest
  | cons letter more ih =>
    rw [List.forall_mem_cons] at hknown
    obtain ⟨flag, hflag⟩ := Option.ne_none_iff_exists'.1 hknown.1
    have htoken : FlagSet.ofToken? [letter] = some (.single flag) := by
      rw [FlagSet.ofToken?, hflag, Option.map_some]
    rw [List.map_cons, List.cons_append, splitFlags, htoken, FlagSet.ofLetters_cons hflag]
    simp only [ih hknown.2]

/-- Tokens that start with no flag have no flags in front. -/
theorem splitFlags_of_length {token : Text} (h : token.length ≠ 1) (rest : List Text) :
    splitFlags (token :: rest) = (.empty, token :: rest) := by
  have htoken : FlagSet.ofToken? token = none := by
    unfold FlagSet.ofToken?
    split
    · simp at h
    · rfl
  rw [splitFlags, htoken]

/-- Flag letters and a phrase, each flag followed by a space. -/
def flagged (flags : FlagSet) (head : Text) (operands : List Text) : Text :=
  flags.letters.flatMap (fun letter ↦ [letter, ' ']) ++ phrase head operands

section

variable {flags : FlagSet} {head : Text} {operands : List Text}

theorem isWord_of_mem_letters {letter : Char} (h : letter ∈ flags.letters) :
    Text.isWord letter = true := by
  have hall : "BSAK".toList.all Text.isWord = true := by decide
  exact List.all_eq_true.1 hall letter (List.mem_filter.1 h).1

theorem isPlain_flagged (flags : FlagSet) (hhead : IsToken head)
    (hoperands : ∀ token ∈ operands, IsToken token) : IsPlain (flagged flags head operands) := by
  refine IsPlain.append (fun c hmem ↦ ?_) (isPlain_phrase hhead hoperands)
  obtain ⟨letter, hletter, hc⟩ := List.mem_flatMap.1 hmem
  rcases List.mem_cons.1 hc with rfl | hc
  · exact .inl (isWord_of_mem_letters hletter)
  · exact .inr (.inl (List.mem_singleton.1 hc))

/-- The first character of a flagged phrase is that of a flag or of the opcode. -/
theorem head?_flagged (flags : FlagSet) (hhead : IsToken head) (operands : List Text) :
    ∃ c, (flagged flags head operands).head? = some c ∧ (Text.isWord c = true ∨ c = '@') := by
  unfold flagged
  rcases hletters : flags.letters with _ | ⟨letter, more⟩
  · obtain ⟨c, rest, rfl⟩ := List.exists_cons_of_ne_nil hhead.1
    exact ⟨c, head?_phrase hhead operands, hhead.2 c List.mem_cons_self⟩
  · exact ⟨letter, rfl, .inl (isWord_of_mem_letters (hletters ▸ List.mem_cons_self))⟩

theorem getLast?_flagged (flags : FlagSet) (hhead : IsToken head)
    (hoperands : ∀ token ∈ operands, IsToken token) :
    ∃ c, (flagged flags head operands).getLast? = some c ∧ Text.isBlank c = false := by
  obtain ⟨c, hc, hblank⟩ := getLast?_phrase hhead hoperands
  exact ⟨c, by rw [flagged, List.getLast?_append, hc]; rfl, hblank⟩

/-- A flagged phrase is an instruction with just these flags and words. -/
theorem bodyOf_flagged (hhead : IsToken head) (hlong : head.length ≠ 1)
    (hoperands : ∀ token ∈ operands, IsToken token) :
    bodyOf (flagged flags head operands) = .instruction flags (head :: operands) := by
  have hnone : splitDefinition (flagged flags head operands) = none := by
    obtain ⟨c, hc, hword⟩ := head?_flagged flags hhead operands
    unfold splitDefinition
    split
    · next heq =>
      rw [heq] at hc
      obtain rfl := Option.some.inj hc
      exfalso
      rcases hword with hword | hword <;> revert hword <;> decide
    · rfl
  have hseparator : ∀ letter ∈ flags.letters, isSeparator letter = false :=
    fun _ hmem ↦ isSeparator_of_isWord (isWord_of_mem_letters hmem)
  have htokens : tokens (flagged flags head operands) =
      flags.letters.map (fun letter ↦ [letter]) ++ head :: operands := by
    rw [flagged, tokens_letters hseparator, tokens_phrase hhead hoperands]
  unfold bodyOf
  rw [hnone]
  simp only [tokens_normalize (isPlain_flagged flags hhead hoperands), htokens,
    splitFlags_append (fun _ ↦ FlagSet.ofLetter?_ne_none_of_mem_letters)
      (splitFlags_of_length hlong operands), FlagSet.ofLetters_letters]

end

theorem splitLabel_append {name body : Text} (hne : name ≠ [])
    (hname : ∀ c ∈ name, Text.isWord c = true) :
    splitLabel ('@' :: name ++ ':' :: body) = some ('@' :: name, Text.trim body) := by
  have hcolon : ':' ∉ '@' :: name := by
    rw [List.mem_cons, not_or]
    exact ⟨by decide, Text.not_mem_of_isWord hname (by decide)⟩
  have hisName : Text.isName name = true := by
    simp [Text.isName, hne, List.all_eq_true.2 hname]
  have hfirst := Text.splitFirst_append hcolon body
  rw [List.cons_append] at hfirst ⊢
  simp only [splitLabel, hfirst, List.tail_cons, hisName, if_true]

/-- A labelled line is taken apart into its label, its flags and its words. -/
theorem ofText_labelled {name head : Text} {operands : List Text} (flags : FlagSet)
    (hne : name ≠ []) (hname : ∀ c ∈ name, Text.isWord c = true) (hhead : IsToken head)
    (hlong : head.length ≠ 1) (hoperands : ∀ token ∈ operands, IsToken token) :
    ofText ('@' :: name ++ ':' :: ' ' :: flagged flags head operands) =
      ⟨some ('@' :: name), .instruction flags (head :: operands)⟩ := by
  have hplain := isPlain_flagged flags hhead hoperands
  obtain ⟨first, hfirst, hword⟩ := head?_flagged flags hhead operands
  obtain ⟨last, hlast, hblank⟩ := getLast?_flagged flags hhead hoperands
  have hblank' : Text.isBlank first = false := by
    rcases hword with hword | rfl
    · exact Text.isBlank_of_isWord hword
    · decide
  have hmark : '#' ∉ '@' :: name ++ ':' :: ' ' :: flagged flags head operands := by
    have hlabel : '#' ∉ name := Text.not_mem_of_isWord hname (by decide)
    have hrest : '#' ∉ flagged flags head operands := fun hmem ↦ by
      rcases hplain '#' hmem with h | h | h | h <;> revert h <;> decide
    simp [hlabel, hrest]
  have hcode : code ('@' :: name ++ ':' :: ' ' :: flagged flags head operands) =
      '@' :: name ++ ':' :: ' ' :: flagged flags head operands := by
    refine code_eq_self hmark (by simp [show Text.isBlank '@' = false by decide]) ?_
    rw [List.getLast?_append, List.getLast?_cons, List.getLast?_cons, hlast]
    simpa using hblank
  have htrim : Text.trim (' ' :: flagged flags head operands) = flagged flags head operands := by
    rw [Text.trim, show Text.trimStart (' ' :: flagged flags head operands) =
      Text.trimStart (flagged flags head operands) from List.dropWhile_cons_of_pos (by decide)]
    exact Text.trim_of_ends (by simpa [hfirst] using hblank') (by simpa [hlast] using hblank)
  simp only [ofText, hcode, splitLabel_append hne hname, htrim,
    bodyOf_flagged hhead hlong hoperands]

end Statement

end Sequencer
