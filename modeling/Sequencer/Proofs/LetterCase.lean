import Mathlib
import Sequencer.Constant
import Sequencer.Proofs.Lexing

/-!
# Expressions in other letter case

Letter case tells neither blanks nor words nor symbols apart, so a lowered text falls into the
lowered lexemes. Numbers are lowered before they are read, and constants are looked up in upper
case. So a lowered expression is evaluated step by step like the expression itself: it has the same
value, or the same fault with the text in it lowered. Texts that agree once they are lowered
therefore have the same values.
-/

namespace Sequencer

namespace Text

variable {skip : Char → Bool} {joins : Char → Char → Bool} {f : Char → Char}

theorem isWord_toLower (c : Char) : isWord c.toLower = isWord c := by
  by_cases hupper : c.isUpper = true
  · have halpha : c.isAlpha = true := by simp [Char.isAlpha, hupper]
    simp [isWord, Char.isAlphanum, halpha]
  · rw [Char.toLower_eq_of_not_isUpper hupper]

theorem isBlank_toLower (c : Char) : isBlank c.toLower = isBlank c := by
  by_cases hupper : c.isUpper = true
  · have hword : isWord c = true := by simp [isWord, Char.isAlphanum, Char.isAlpha, hupper]
    rw [isBlank_of_isWord hword, isBlank_of_isWord ((isWord_toLower c).trans hword)]
  · rw [Char.toLower_eq_of_not_isUpper hupper]

/-- Characters are changed within their runs, as long as the change hides no boundary. -/
theorem runs_map (hskip : ∀ c, skip (f c) = skip c) (hjoins : ∀ c d, joins (f c) (f d) = joins c d)
    (t : Text) : runs skip joins (t.map f) = (runs skip joins t).map (List.map f) := by
  induction t with
  | nil => rfl
  | cons c rest ih =>
    simp only [List.map_cons, runs, hskip, ih, List.head?_map]
    split
    · rfl
    · cases rest.head? with
      | none => rfl
      | some d =>
        cases runs skip joins rest with
        | nil => rfl
        | cons run more =>
          simp only [Option.map_some, List.map_cons, hskip, hjoins]
          split <;> rfl

theorem lower_lower (t : Text) : lower (lower t) = lower t := by simp [lower]

theorem lower_upper (t : Text) : lower (upper t) = lower t := by simp [lower, upper]

theorem upper_lower (t : Text) : upper (lower t) = upper t := by simp [lower, upper]

end Text

/-- A fault with the text it shows in lower case. -/
def ExpressionFault.lower : ExpressionFault → ExpressionFault
  | unexpected text => unexpected (Text.lower text)
  | badNumber text => badNumber (Text.lower text)
  | unknownConstant name => unknownConstant (Text.lower name)
  | fault => fault

namespace Expression

/-! ## Tokens -/

def Token.lower : Token → Token
  | name text => name (Text.lower text)
  | token => token

theorem Token.text_lower (token : Token) : token.lower.text = Text.lower token.text := by
  cases token with
  | number value =>
    have hdigit : ∀ d < 10, d.digitChar.toLower = d.digitChar := by decide
    refine (List.map_congr_left fun c hc ↦ ?_).trans (List.map_id _) |>.symm
    obtain ⟨d, hd, rfl⟩ := Numeral.exists_digit_of_mem_toDigits (by norm_num) hc
    exact hdigit d hd
  | _ => rfl

theorem lexemes_lower (source : Text) :
    lexemes (Text.lower source) = (lexemes source).map Text.lower := by
  have hdollar (c : Char) : (c.toLower == '$') = (c == '$') := by
    rw [Bool.eq_iff_iff, beq_iff_eq, beq_iff_eq]
    exact ⟨fun h ↦ eq_of_toLower_eq h rfl, fun h ↦ by rw [h]; rfl⟩
  refine Text.runs_map Text.isBlank_toLower (fun c d ↦ ?_) source
  rw [Text.isWord_toLower, Text.isWord_toLower, hdollar]

theorem readNumber_lower (word : Text) :
    readNumber (Text.lower word) = (readNumber word).mapError .lower := by
  have hfault (read : Except NumeralFault ℕ) :
      read.mapError (fun _ ↦ ExpressionFault.badNumber (Text.lower word)) =
        (read.mapError fun _ ↦ ExpressionFault.badNumber word).mapError .lower := by
    cases read <;> rfl
  unfold readNumber
  rw [Text.lower_lower]
  exact hfault _

theorem isDigit_of_isAlpha {c : Char} (h : c.isAlpha = true) : c.isDigit = false := by
  simp only [Char.isAlpha, Char.isUpper, Char.isLower, Bool.or_eq_true, Bool.and_eq_true,
    decide_eq_true_eq, UInt32.le_iff_toNat_le, ge_iff_le] at h
  simp only [Char.isDigit, Bool.and_eq_false_iff, decide_eq_false_iff_not, UInt32.le_iff_toNat_le,
    ge_iff_le]
  have hnine : '9'.val.toNat = 57 := rfl
  have hupper : 'A'.val.toNat = 65 := rfl
  have hlower : 'a'.val.toNat = 97 := rfl
  omega

/-- A lexeme that starts like none of the tokens is refused at its first character. -/
theorem ofLexeme_eq_error {c : Char} {word : Text} (hdigit : c.isDigit = false)
    (hname : c = '$' → word = []) (hsymbol : word = [] → c ∉ symbols.map Prod.fst) :
    Token.ofLexeme (c :: word) = .error (.unexpected [c]) := by
  unfold Token.ofLexeme
  split
  case h_7 heq =>
    obtain ⟨rfl, rfl⟩ := List.cons.inj heq
    cases hname rfl
  case h_8 heq =>
    obtain ⟨rfl, rfl⟩ := List.cons.inj heq
    rw [if_neg (by simp [hdigit])]
  case h_9 heq => cases heq
  all_goals
    next heq =>
    obtain ⟨rfl, rfl⟩ := List.cons.inj heq
    exact absurd (by decide) (hsymbol rfl)

theorem ofLexeme_letter {c : Char} (h : c.isAlpha = true) (word : Text) :
    Token.ofLexeme (c :: word) = .error (.unexpected [c]) := by
  refine ofLexeme_eq_error (isDigit_of_isAlpha h) ?_ fun _ hsymbol ↦ ?_
  · rintro rfl
    cases h
  · obtain ⟨⟨_, token⟩, hmem, rfl⟩ := List.mem_map.1 hsymbol
    obtain ⟨-, hword, -⟩ := symbols_spec hmem
    simp [Text.isWord, Char.isAlphanum, h] at hword

/-- A lowered lexeme is read like the lexeme itself. -/
theorem ofLexeme_lower (lexeme : Text) :
    Token.ofLexeme (Text.lower lexeme) =
      ((Token.ofLexeme lexeme).map Token.lower).mapError .lower := by
  obtain _ | ⟨c, word⟩ := lexeme
  · rfl
  by_cases hupper : c.isUpper = true
  · have halpha : c.isAlpha = true := by simp [Char.isAlpha, hupper]
    rw [ofLexeme_letter halpha]
    exact ofLexeme_letter (by simpa using halpha) _
  have hc : c.toLower = c := Char.toLower_eq_of_not_isUpper hupper
  have hlower : Text.lower (c :: word) = c :: Text.lower word := by
    rw [Text.lower, List.map_cons, hc, Text.lower]
  by_cases hdigit : c.isDigit = true
  · rw [ofLexeme_number hdigit, hlower, ofLexeme_number hdigit, ← hlower, readNumber_lower]
    cases readNumber (c :: word) <;> rfl
  rw [Bool.not_eq_true] at hdigit
  have hrefused (hword : Token.ofLexeme (c :: word) = .error (.unexpected [c]))
      (hagain : Token.ofLexeme (c :: Text.lower word) = .error (.unexpected [c])) :
      Token.ofLexeme (Text.lower (c :: word)) =
        ((Token.ofLexeme (c :: word)).map Token.lower).mapError .lower := by
    rw [hlower, hword, hagain]
    simp [Except.map, Except.mapError, ExpressionFault.lower, Text.lower, hc]
  obtain _ | ⟨d, rest⟩ := word
  · by_cases hsymbol : c ∈ symbols.map Prod.fst
    · obtain ⟨⟨_, token⟩, hmem, rfl⟩ := List.mem_map.1 hsymbol
      have hkept : ∀ entry ∈ symbols, entry.2.lower = entry.2 := by decide
      rw [hlower, ofLexeme_symbol hmem]
      exact (ofLexeme_symbol hmem).trans (congrArg Except.ok (hkept _ hmem).symm)
    · have herror := ofLexeme_eq_error hdigit (fun _ ↦ rfl) fun _ ↦ hsymbol
      exact hrefused herror herror
  · by_cases hdollar : c = '$'
    · subst hdollar
      rfl
    · exact hrefused (ofLexeme_eq_error hdigit (fun h ↦ absurd h hdollar) (by simp))
        (ofLexeme_eq_error hdigit (fun h ↦ absurd h hdollar) (by simp [Text.lower]))

theorem tokens_lower (source : Text) :
    tokens (Text.lower source) =
      ((tokens source).map (List.map Token.lower)).mapError .lower := by
  unfold tokens
  rw [lexemes_lower]
  induction lexemes source with
  | nil => rfl
  | cons lexeme rest ih =>
    rw [List.map_cons, List.mapM_cons, List.mapM_cons, ofLexeme_lower, ih]
    cases Token.ofLexeme lexeme with
    | error fault => rfl
    | ok token => cases rest.mapM Token.ofLexeme <;> rfl

/-! ## Values -/

section

variable (lookup : Text → Option ℤ)

theorem mapError_checked (value : ℤ) : (checked value).mapError .lower = checked value := by
  unfold checked
  split <;> rfl

theorem mapError_negate (n : ℕ) (value : ℤ) :
    (negate (integers lookup) n value).mapError .lower = negate (integers lookup) n value := by
  induction n generalizing value with
  | zero => rfl
  | succ n ih =>
    rw [negate, Except.mapError_bind]
    simp only [ih]
    exact congrArg (· >>= _) (mapError_checked (-value))

theorem mapError_scaled (product : Option (ℤ × ProductOperator)) (value : ℤ) :
    (scaled (integers lookup) product value).mapError .lower =
      scaled (integers lookup) product value := by
  obtain _ | ⟨left, _ | _⟩ := product
  · rfl
  · exact mapError_checked _
  · simp only [scaled, integers, ProductOperator.apply]
    split
    · rfl
    · exact mapError_checked _

theorem mapError_total (sum : Option (ℤ × SumOperator)) (product : ℤ) :
    (total (integers lookup) sum product).mapError .lower =
      total (integers lookup) sum product := by
  obtain _ | ⟨left, _ | _⟩ := sum
  · rfl
  · exact mapError_checked _
  · exact mapError_checked _

theorem mapError_accept (pending : Pending ℤ) (outer : List (Pending ℤ)) (value : ℤ) :
    (pending.accept (integers lookup) outer value).mapError .lower =
      pending.accept (integers lookup) outer value := by
  simp only [Pending.accept, Except.mapError_bind, mapError_negate, mapError_scaled]
  rfl

theorem mapError_finish (state : State ℤ) :
    (state.finish (integers lookup)).mapError .lower = state.finish (integers lookup) := by
  obtain _ | ⟨sum, product, _ | _⟩ := state
  · rfl
  · simp only [State.finish, Except.mapError_bind, mapError_total]
    rfl
  · simp only [State.finish, Except.mapError_bind, mapError_total]
    rfl

end

/-- Names are known whatever their letter case. -/
def IgnoresCase (lookup : Text → Option ℤ) : Prop :=
  ∀ name, lookup (Text.lower name) = lookup name

variable {lookup : Text → Option ℤ} (hlookup : IgnoresCase lookup)

include hlookup

theorem name_lower (name : Text) :
    (integers lookup).name (Text.lower name) = ((integers lookup).name name).mapError .lower := by
  simp only [integers, hlookup name]
  cases lookup name <;> rfl

/-- A lowered token leads to the same state. -/
theorem step_lower (state : State ℤ) (token : Token) :
    state.step (integers lookup) token.lower =
      (state.step (integers lookup) token).mapError .lower := by
  have hrefused : Except.error (.unexpected token.lower.text) =
      (.error (.unexpected token.text) : Except _ (State ℤ)).mapError ExpressionFault.lower := by
    rw [token.text_lower]
    rfl
  cases state with
  | operand pending outer =>
    cases token with
    | number value =>
      simp only [Token.lower, State.step, Except.mapError_bind, mapError_accept]
      rfl
    | name name =>
      simp only [Token.lower, State.step, Except.mapError_bind, mapError_accept,
        name_lower hlookup]
    | _ => rfl
  | operator sum product outer =>
    cases token with
    | closing =>
      simp only [Token.lower, State.step, Except.mapError_bind, mapError_total]
      cases outer with
      | nil => rfl
      | cons pending outer => simp only [mapError_accept]
    | number value =>
      simp only [Token.lower, State.step, Except.mapError_bind, mapError_total]
      exact congrArg (fun refused ↦ total _ _ _ >>= fun _ ↦ refused) hrefused
    | _ =>
      simp only [Token.lower, State.step, Except.mapError_bind, mapError_total]
      rfl

theorem foldlM_lower (ts : List Token) (state : State ℤ) :
    (ts.map Token.lower).foldlM (State.step (integers lookup)) state =
      (ts.foldlM (State.step (integers lookup)) state).mapError .lower := by
  induction ts generalizing state with
  | nil => rfl
  | cons token rest ih =>
    rw [List.map_cons, List.foldlM_cons, List.foldlM_cons, Except.mapError_bind,
      step_lower hlookup]
    simp only [ih]

/-- A lowered expression has the same value, or the same fault in lower case. -/
theorem evaluate_lower (source : Text) :
    evaluate lookup (Text.lower source) = (evaluate lookup source).mapError .lower := by
  unfold evaluate
  rw [tokens_lower]
  rcases tokens source with fault | _ | ⟨token, rest⟩
  · rfl
  · rfl
  · change value (integers lookup) (List.map Token.lower (token :: rest)) =
      (value (integers lookup) (token :: rest)).mapError .lower
    simp only [value, foldlM_lower hlookup, Except.mapError_bind, mapError_finish]

end Expression

namespace Constants

variable (constants : Constants)

theorem value?_lower (name : Text) :
    constants.value? (Text.lower name) = constants.value? name := by
  rw [value?, value?, Text.upper_lower]

theorem evaluate_lower (source : Text) :
    constants.evaluate (Text.lower source) = (constants.evaluate source).mapError .lower :=
  Expression.evaluate_lower constants.value?_lower source

theorem evaluate_eq_ok_iff_of_lower_eq {source other : Text}
    (h : Text.lower source = Text.lower other) (value : ℤ) :
    constants.evaluate source = .ok value ↔ constants.evaluate other = .ok value := by
  rw [← Except.mapError_eq_ok_iff (f := ExpressionFault.lower), ← evaluate_lower, h, evaluate_lower,
    Except.mapError_eq_ok_iff]

/-- Evaluation does not depend on letter case, in names, in digits or in the marks of a radix: an
expression has a value just when it has this value all in upper case, all in lower case, or with any
of its letters in the other case. -/
theorem evaluate_recased (source : Text) (value : ℤ) :
    (constants.evaluate source = .ok value ↔
        constants.evaluate (Text.upper source) = .ok value) ∧
      (constants.evaluate source = .ok value ↔
        constants.evaluate (Text.lower source) = .ok value) ∧
      ∀ other, Text.lower other = Text.lower source →
        (constants.evaluate source = .ok value ↔ constants.evaluate other = .ok value) :=
  ⟨constants.evaluate_eq_ok_iff_of_lower_eq (Text.lower_upper source).symm value,
    constants.evaluate_eq_ok_iff_of_lower_eq (Text.lower_lower source).symm value,
    fun _ h ↦ constants.evaluate_eq_ok_iff_of_lower_eq h.symm value⟩

/-- A name, hexadecimal digits and both marks, each in four spellings. -/
theorem evaluate_recased_spellings :
    ∃ constants, Constants.initial.define "Rows".toList 4 = .ok constants ∧
      constants.evaluate "$rowS * 0xAb - 0B11".toList = .ok 681 ∧
      constants.evaluate "$ROWS * 0XAB - 0B11".toList = .ok 681 ∧
      constants.evaluate "$rows * 0xab - 0b11".toList = .ok 681 ∧
      constants.evaluate "$Rows * 0XaB - 0b11".toList = .ok 681 := by
  have hvalue : (Constants.initial.define "Rows".toList 4).toOption.bind
      (fun constants ↦ (constants.evaluate "$rowS * 0xAb - 0B11".toList).toOption) = some 681 := by
    decide +kernel
  rcases hdefine : Constants.initial.define "Rows".toList 4 with held | constants
  · rw [hdefine] at hvalue
    cases hvalue
  rw [hdefine] at hvalue
  change (constants.evaluate "$rowS * 0xAb - 0B11".toList).toOption = some 681 at hvalue
  rcases hmixed : constants.evaluate "$rowS * 0xAb - 0B11".toList with fault | value
  · rw [hmixed] at hvalue
    cases hvalue
  rw [hmixed] at hvalue
  obtain rfl : value = 681 := Option.some.inj hvalue
  obtain ⟨hupper, hlower, hother⟩ :=
    constants.evaluate_recased "$rowS * 0xAb - 0B11".toList 681
  refine ⟨constants, rfl, hmixed, hupper.1 hmixed, hlower.1 hmixed, ?_⟩
  exact (hother "$Rows * 0XaB - 0b11".toList (by decide)).1 hmixed

end Constants

end Sequencer
