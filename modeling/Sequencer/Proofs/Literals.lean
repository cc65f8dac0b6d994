import Mathlib
import Sequencer.Operand.Resolution
import Sequencer.Proofs.Text

/-!
# Written numbers as operands

A hexadecimal numeral with its mark is an expression of one token. As an operand it stands for its
number wherever that number is in range, whatever constants there are.
-/

namespace Sequencer

/-- A text without blanks in which all neighbours belong together is one run. -/
theorem Text.runs_eq_singleton {skip : Char → Bool} {joins : Char → Char → Bool} {t : Text}
    (hne : t ≠ []) (hskip : ∀ c ∈ t, skip c = false) (hjoins : ∀ c ∈ t, ∀ d ∈ t, joins c d = true) :
    runs skip joins t = [t] := by
  have hchain : t.IsChain fun c d ↦ joins c d = true :=
    (List.pairwise_of_forall_mem_list hjoins).isChain
  calc
    runs skip joins t = runs skip joins (t ++ []) := by rw [List.append_nil]
    _ = t :: runs skip joins [] := runs_append hne hskip hchain (by simp)
    _ = [t] := rfl

namespace Expression

theorem isWord_of_mem_markedHex {width n : ℕ} {c : Char} (h : c ∈ Numeral.markedHex width n) :
    Text.isWord c = true := by
  rcases List.mem_cons.1 h with rfl | h
  · decide
  rcases List.mem_cons.1 h with rfl | h
  · decide
  exact Numeral.isWord_of_mem_padded (by norm_num) le_rfl h

theorem lower_hex (width n : ℕ) : Text.lower (Numeral.hex width n) = Numeral.hex width n := by
  have hdigit : ∀ d < 16, d.digitChar.toLower = d.digitChar := by decide
  refine (List.map_congr_left fun c hmem ↦ ?_).trans (List.map_id _)
  obtain ⟨d, hd, rfl⟩ := Numeral.exists_digit_of_mem_padded (by norm_num) hmem
  exact hdigit d hd

theorem readNumber_markedHex {n : ℕ} (hn : n < numberBound) (width : ℕ) :
    readNumber (Numeral.markedHex width n) = .ok n := by
  have hread : Numeral.read 16 numberBound (Numeral.hex width n) = .ok n :=
    Numeral.read_padded (by norm_num) le_rfl hn width
  have hlower : Text.lower (Numeral.markedHex width n) = '0' :: 'x' :: Numeral.hex width n :=
    congrArg (fun digits ↦ '0' :: 'x' :: digits) (lower_hex width n)
  unfold readNumber
  rw [hlower]
  simp only [hread]
  rfl

theorem tokens_markedHex {n : ℕ} (hn : n < numberBound) (width : ℕ) :
    tokens (Numeral.markedHex width n) = .ok [.number n] := by
  have hlexemes : lexemes (Numeral.markedHex width n) = [Numeral.markedHex width n] := by
    refine Text.runs_eq_singleton (List.cons_ne_nil _ _) ?_ ?_
    · exact fun c hc ↦ Text.isBlank_of_isWord (isWord_of_mem_markedHex hc)
    · intro c hc d hd
      simp [isWord_of_mem_markedHex hc, isWord_of_mem_markedHex hd]
  have hlexeme : Token.ofLexeme (Numeral.markedHex width n) =
      (readNumber (Numeral.markedHex width n)).map .number := rfl
  rw [tokens, hlexemes, List.mapM_cons, hlexeme, readNumber_markedHex hn]
  rfl

/-- A marked numeral has the value of its digits. -/
theorem evaluate_markedHex (lookup : Text → Option ℤ) {n : ℕ} (hn : n < numberBound)
    (width : ℕ) : evaluate lookup (Numeral.markedHex width n) = .ok n := by
  unfold evaluate
  rw [tokens_markedHex hn]
  rfl

end Expression

namespace Operand

/-- A marked numeral within range is a constant, with or without bases. -/
theorem constantSource_markedHex (constants : Constants) {bits n : ℕ} (bases : List String)
    (hbits : n < Bits.capacity bits) (hn : n < Expression.numberBound) (width : ℕ) :
    constantSource constants bits bases (Numeral.markedHex width n) = .ok (UInt16.ofNat n) := by
  have hexpression : sourceExpression bases (Numeral.markedHex width n) =
      .ok (Numeral.markedHex width n) := rfl
  have hvalue : evaluate constants (Numeral.markedHex width n) = .ok (n : ℤ) := by
    rw [evaluate, Constants.evaluate, Expression.evaluate_markedHex _ hn]
    rfl
  unfold constantSource
  rw [hexpression]
  simp only [bind, Except.bind, hvalue]
  rw [if_pos ⟨Int.natCast_nonneg n, by simpa using hbits⟩]
  rfl

end Operand

end Sequencer
