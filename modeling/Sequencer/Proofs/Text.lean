import Mathlib
import Sequencer.Text.Blank
import Sequencer.Text.Numeral

/-!
# Texts that are taken apart where they were put together

A number is read back from its digits in the radix it was written in, leading zeros or not. Lines
are found again at the line feeds that end them, and a text is found again between blanks.
-/

namespace Sequencer

namespace Text

theorem isBlank_of_isWord {c : Char} (h : isWord c = true) : isBlank c = false := by
  have hcases : c.toNat < 0x7B ∧ 0x2F < c.toNat := by
    simp only [isWord, Char.isAlphanum, Char.isAlpha, Char.isUpper, Char.isLower, Char.isDigit,
      Bool.or_eq_true, Bool.and_eq_true, decide_eq_true_eq, beq_iff_eq, UInt32.le_iff_toNat_le,
      ge_iff_le] at h
    obtain ((h | h) | h) | rfl := h
    · have hlow : (0x41 : ℕ) ≤ c.toNat := h.1
      have hhigh : c.toNat ≤ (0x5A : ℕ) := h.2
      omega
    · have hlow : (0x61 : ℕ) ≤ c.toNat := h.1
      have hhigh : c.toNat ≤ (0x7A : ℕ) := h.2
      omega
    · have hlow : (0x30 : ℕ) ≤ c.toNat := h.1
      have hhigh : c.toNat ≤ (0x39 : ℕ) := h.2
      omega
    · decide
  simp only [isBlank, blankRanges, List.any_cons, List.any_nil, Bool.or_false, Bool.or_eq_false_iff,
    Bool.and_eq_false_iff, decide_eq_false_iff_not]
  omega

theorem ne_of_isWord {c mark : Char} (h : isWord c = true) (hmark : isWord mark = false) :
    c ≠ mark := by
  rintro rfl
  rw [h] at hmark
  cases hmark

/-- A text of word characters does not hold any other character. -/
theorem not_mem_of_isWord {t : Text} {mark : Char} (h : ∀ c ∈ t, isWord c = true)
    (hmark : isWord mark = false) : mark ∉ t := fun hmem ↦ ne_of_isWord (h mark hmem) hmark rfl

/-- Characters of one kind in front of a text that does not begin with one. -/
theorem span_append {p : Char → Bool} (front rest : Text) (hfront : ∀ c ∈ front, p c = true)
    (hrest : ∀ c ∈ rest.head?, p c = false) :
    (front ++ rest).takeWhile p = front ∧ (front ++ rest).dropWhile p = rest := by
  rw [List.takeWhile_append_of_pos hfront, List.dropWhile_append_of_pos hfront]
  cases rest with
  | nil => simp
  | cons c rest =>
    have hc : p c = false := hrest c rfl
    simp [hc]

theorem trimStart_of_head {t : Text} (h : ∀ c ∈ t.head?, isBlank c = false) : trimStart t = t := by
  cases t with
  | nil => rfl
  | cons c rest =>
    have hc : isBlank c = false := h c rfl
    rw [trimStart, List.dropWhile_cons_of_neg (by simp [hc])]

theorem trimEnd_of_getLast {t : Text} (h : ∀ c ∈ t.getLast?, isBlank c = false) :
    trimEnd t = t := by
  have hstart : trimStart t.reverse = t.reverse :=
    trimStart_of_head (by rwa [List.head?_reverse])
  rw [trimEnd]
  change (trimStart t.reverse).reverse = t
  rw [hstart, List.reverse_reverse]

theorem trim_of_ends {t : Text} (hhead : ∀ c ∈ t.head?, isBlank c = false)
    (hlast : ∀ c ∈ t.getLast?, isBlank c = false) : trim t = t := by
  rw [trim, trimStart_of_head hhead, trimEnd_of_getLast hlast]

theorem trim_append_space {t : Text} (h : ∀ c ∈ t, isBlank c = false) : trim (t ++ [' ']) = t := by
  have hback : ∀ c ∈ t.getLast?, isBlank c = false := fun c hc ↦ h c (List.mem_of_getLast? hc)
  have hend : trimEnd (t ++ [' ']) = trimEnd t := by
    rw [trimEnd, List.reverse_append]
    exact congrArg List.reverse (List.dropWhile_cons_of_pos (by decide))
  have hstart : trimStart (t ++ [' ']) = t ++ [' '] ∨ t = [] := by
    cases t with
    | nil => exact .inr rfl
    | cons c rest =>
      exact .inl (trimStart_of_head fun d hd ↦ h d (by simp at hd; simp [hd]))
  rcases hstart with hstart | rfl
  · rw [trim, hstart, hend, trimEnd_of_getLast hback]
  · decide

theorem splitFirst_append {mark : Char} {front : Text} (h : mark ∉ front) (back : Text) :
    splitFirst mark (front ++ mark :: back) = some (front, back) := by
  induction front with
  | nil => simp [splitFirst]
  | cons c rest ih =>
    rw [List.mem_cons, not_or] at h
    have hc : (c == mark) = false := by simpa using Ne.symm h.1
    simp [splitFirst, hc, ih h.2]

theorem eq_of_splitFirst {mark : Char} {t before after : Text}
    (h : splitFirst mark t = some (before, after)) : t = before ++ mark :: after := by
  induction t generalizing before with
  | nil => cases h
  | cons c rest ih =>
    rw [splitFirst] at h
    split at h
    · next hc =>
      cases h
      rw [beq_iff_eq.1 hc, List.nil_append]
    · obtain ⟨⟨front, back⟩, hfront, hpair⟩ := Option.map_eq_some_iff.1 h
      cases hpair
      rw [ih hfront, List.cons_append]

theorem splitFirst_eq_none {mark : Char} {t : Text} (h : mark ∉ t) : splitFirst mark t = none := by
  rw [Option.eq_none_iff_forall_ne_some]
  rintro ⟨before, after⟩ hsplit
  rw [eq_of_splitFirst hsplit] at h
  simp at h

theorem splitFirstPair_append {mark other : Char} {front : Text} (h : mark ∉ front) (back : Text) :
    splitFirstPair (mark, other) (front ++ mark :: other :: back) = some (front, back) := by
  induction front with
  | nil => simp [splitFirstPair]
  | cons c rest ih =>
    rw [List.mem_cons, not_or] at h
    obtain ⟨d, tail, htail⟩ : ∃ d tail, rest ++ mark :: other :: back = d :: tail := by
      cases rest with
      | nil => exact ⟨_, _, rfl⟩
      | cons d more => exact ⟨_, _, rfl⟩
    have hpair : ((c, d) == (mark, other)) = false := by
      simpa using fun heq ↦ absurd heq.symm h.1
    rw [htail] at ih
    simp [htail, splitFirstPair, hpair, ih h.2]

theorem lines_append {line : Text} (hfeed : '\n' ∉ line) (hreturn : '\r' ∉ line) (rest : Text) :
    lines (line ++ '\n' :: rest) = line :: lines rest := by
  induction line with
  | nil => rw [List.nil_append, lines]
  | cons c more ih =>
    rw [List.mem_cons, not_or] at hfeed hreturn
    rw [List.cons_append, lines, ih hfeed.2 hreturn.2]
    · exact fun hc ↦ hfeed.1 hc.symm
    · exact fun _ hc ↦ absurd hc.symm hreturn.1

/-- Lines that are each ended by a line feed are found again. -/
theorem lines_flatMap {ls : List Text} (h : ∀ line ∈ ls, '\n' ∉ line ∧ '\r' ∉ line) :
    lines (ls.flatMap fun line ↦ line ++ ['\n']) = ls := by
  induction ls with
  | nil => rfl
  | cons line rest ih =>
    rw [List.forall_mem_cons] at h
    rw [List.flatMap_cons, List.append_assoc, List.singleton_append, lines_append h.1.1 h.1.2,
      ih h.2]

/-- A run is cut off where its last character does not stay with the next one. -/
theorem runs_append {skip : Char → Bool} {joins : Char → Char → Bool} {run rest : Text}
    (hne : run ≠ []) (hskip : ∀ c ∈ run, skip c = false)
    (hjoins : run.IsChain fun c d ↦ joins c d = true)
    (hlast : ∀ c ∈ run.getLast?, ∀ d ∈ rest.head?, joins c d = false) :
    runs skip joins (run ++ rest) = run :: runs skip joins rest := by
  induction run with
  | nil => exact absurd rfl hne
  | cons c tail ih =>
    have hc : skip c = false := hskip c List.mem_cons_self
    cases tail with
    | nil =>
      cases rest with
      | nil => simp [runs, hc]
      | cons d more =>
        have hd : joins c d = false := hlast c rfl d rfl
        rw [List.singleton_append, runs]
        cases runs skip joins (d :: more) with
        | nil => simp [hc]
        | cons first others => simp [hc, hd]
    | cons d more =>
      rw [List.isChain_cons_cons] at hjoins
      have hd : skip d = false := hskip d (by simp)
      have htail := ih (by simp) (fun e he ↦ hskip e (List.mem_cons_of_mem c he)) hjoins.2 hlast
      rw [List.cons_append, runs, htail]
      simp [hc, hd, hjoins.1]

end Text

namespace Numeral

theorem digit?_digitChar {radix d : ℕ} (hd : d < radix) (hradix : radix ≤ 16) :
    digit? radix d.digitChar = some d := by
  have hall : ∀ radix < 17, ∀ d < radix, digit? radix d.digitChar = some d := by decide
  exact hall radix (by omega) d hd

theorem readDigits_append (radix bound value : ℕ) (front back : Text) :
    readDigits radix bound value (front ++ back) =
      (readDigits radix bound value front).bind fun value ↦ readDigits radix bound value back := by
  induction front generalizing value with
  | nil => rfl
  | cons c rest ih =>
    simp only [List.cons_append, readDigits]
    split
    · rfl
    · split
      · exact ih _
      · rfl

theorem readDigits_digitChar {radix bound value d : ℕ} (hd : d < radix) (hradix : radix ≤ 16)
    (hbound : radix * value + d < bound) :
    readDigits radix bound value [d.digitChar] = .ok (radix * value + d) := by
  simp only [readDigits, digit?_digitChar hd hradix, if_pos hbound]

/-- Digits are read back to the number they were written for. -/
theorem readDigits_toDigits {radix bound : ℕ} (hradix : 1 < radix) (hradix' : radix ≤ 16) (n : ℕ)
    (hn : n < bound) : readDigits radix bound 0 (Nat.toDigits radix n) = .ok n := by
  induction n using Nat.strong_induction_on with
  | _ n ih =>
    rw [Nat.toDigits_eq_if hradix]
    split
    · next hsmall =>
      rw [readDigits_digitChar hsmall hradix' (by omega), Nat.mul_zero, Nat.zero_add]
    · next hlarge =>
      have hless : n / radix < n := Nat.div_lt_self (by omega) hradix
      have hdivision := Nat.div_add_mod n radix
      rw [readDigits_append, ih _ hless (hless.trans hn)]
      change readDigits radix bound (n / radix) [(n % radix).digitChar] = .ok n
      rw [readDigits_digitChar (Nat.mod_lt _ (by omega)) hradix' (by omega), hdivision]

theorem readDigits_replicate_zero {radix bound : ℕ} (hradix : 0 < radix) (hbound : 0 < bound)
    (width : ℕ) (digits : Text) :
    readDigits radix bound 0 (List.replicate width '0' ++ digits) =
      readDigits radix bound 0 digits := by
  induction width with
  | zero => rfl
  | succ width ih =>
    have hzero : digit? radix '0' = some 0 := by simp [digit?, hradix]
    rw [List.replicate_succ, List.cons_append, readDigits, hzero]
    simp only [Nat.mul_zero, Nat.add_zero, if_pos hbound, ih]

/-- Without a sign, a numeral is read digit by digit. -/
theorem read_eq_readDigits {radix bound : ℕ} {digits : Text} (hne : digits ≠ [])
    (hplus : '+' ∉ digits) : read radix bound digits = readDigits radix bound 0 digits := by
  obtain ⟨c, rest, rfl⟩ := List.exists_cons_of_ne_nil hne
  have hc : c ≠ '+' := fun h ↦ hplus (h ▸ List.mem_cons_self)
  rw [read]
  · exact fun h ↦ absurd h hne
  · intro h
    exact absurd (List.cons.inj h).1 hc
  · intro rest' h
    exact absurd (List.cons.inj h).1 hc

theorem exists_digit_of_mem_toDigits {radix n : ℕ} (hradix : 1 < radix) {c : Char}
    (h : c ∈ Nat.toDigits radix n) : ∃ d < radix, c = d.digitChar := by
  induction n using Nat.strong_induction_on with
  | _ n ih =>
    rw [Nat.toDigits_eq_if hradix] at h
    split at h
    · next hsmall => exact ⟨n, hsmall, List.mem_singleton.1 h⟩
    · rcases List.mem_append.1 h with hfront | hlast
      · exact ih _ (Nat.div_lt_self (by omega) hradix) hfront
      · exact ⟨_, Nat.mod_lt _ (by omega), List.mem_singleton.1 hlast⟩

theorem isWord_of_mem_decimal {n : ℕ} {c : Char} (h : c ∈ decimal n) :
    Text.isWord c = true := by
  obtain ⟨d, hd, rfl⟩ := exists_digit_of_mem_toDigits (by norm_num) h
  have hall : ∀ d < 10, Text.isWord d.digitChar = true := by decide
  exact hall d hd

theorem exists_digit_of_mem_padded {radix n width : ℕ} (hradix : 1 < radix) {c : Char}
    (h : c ∈ padded width (Nat.toDigits radix n)) : ∃ d < radix, c = d.digitChar := by
  rcases List.mem_append.1 h with hzero | hdigit
  · exact ⟨0, by omega, List.eq_of_mem_replicate hzero⟩
  · exact exists_digit_of_mem_toDigits hradix hdigit

theorem isWord_of_mem_padded {radix n width : ℕ} (hradix : 1 < radix) (hradix' : radix ≤ 16)
    {c : Char} (h : c ∈ padded width (Nat.toDigits radix n)) : Text.isWord c = true := by
  obtain ⟨d, hd, rfl⟩ := exists_digit_of_mem_padded hradix h
  have hall : ∀ d < 16, Text.isWord d.digitChar = true := by decide
  exact hall d (by omega)

theorem padded_ne_nil (radix n width : ℕ) : padded width (Nat.toDigits radix n) ≠ [] := by
  intro h
  exact Nat.toDigits_ne_nil (List.append_eq_nil_iff.1 h).2

/-- A numeral below the bound is read back, whatever its leading zeros. -/
theorem read_padded {radix bound n : ℕ} (hradix : 1 < radix) (hradix' : radix ≤ 16)
    (hn : n < bound) (width : ℕ) :
    read radix bound (padded width (Nat.toDigits radix n)) = .ok n := by
  have hplus : '+' ∉ padded width (Nat.toDigits radix n) :=
    Text.not_mem_of_isWord (fun _ ↦ isWord_of_mem_padded hradix hradix') (by decide)
  rw [read_eq_readDigits (padded_ne_nil _ _ _) hplus, padded,
    readDigits_replicate_zero (by omega) (by omega), readDigits_toDigits hradix hradix' n hn]

end Numeral

end Sequencer
