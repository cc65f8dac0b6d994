import Mathlib
import Sequencer.Proofs.Acceptance
import Sequencer.Proofs.Parentheses

/-!
# The forms of an index

An index in brackets of any kind means what the expression between them means. It selects a general
register, or stands behind the name of a counter and has to be zero there. In the same way a data
move takes its source from a bracketed index of the vector memory. An index may also stand without
brackets, but one that begins and ends with parentheses is taken for a bracketed one, whether these
two belong together or not.
-/

namespace Sequencer

namespace Operand

variable {constants : Constants} {source index : Text} {value : ℤ}

/-- The register that an index of some value selects within a class. -/
def selected : RegisterClass → ℤ → Except OperandFault (RegisterClass × Option UInt8)
  | .general, value =>
    if 0 ≤ value ∧ value ≤ 7 then .ok (.general, some (UInt8.ofNat value.toNat))
    else .error (.registerOutOfRange value)
  | kind, value => if value = 0 then .ok (kind, none) else .error (.noSubregister kind value)

/-- The constant of so many bits that a value is. -/
def held (bits : ℕ) (value : ℤ) : Except OperandFault UInt16 :=
  if 0 ≤ value ∧ value < 2 ^ bits then .ok (UInt16.ofNat value.toNat)
  else .error (.outOfRange value bits)

/-- What begins with the name of a class of registers is no other name of a register. -/
theorem resolveAlias_append {base : String} {kind : RegisterClass}
    (hbase : (base, kind) ∈ RegisterClass.spellings)
    (hindex : ∀ c ∈ index.head?, c.isAlpha = false) :
    Register.resolveAlias (base.toList ++ index) = base.toList ++ index := by
  have hall : ∀ entry ∈ Register.aliases,
      RegisterClass.ofBase? (entry.1.toList.takeWhile Char.isAlpha) = none := by decide +kernel
  have hletters : (base.toList ++ index).takeWhile Char.isAlpha = base.toList :=
    (Text.span_append base.toList index (isAlpha_of_mem_spellings hbase) hindex).1
  have hkind : RegisterClass.ofBase? base.toList = some kind :=
    ofBase?_eq_some_iff.2 ⟨base, hbase, rfl⟩
  have hnone : Register.aliases.find? (fun entry ↦ entry.1.toList == base.toList ++ index) =
      none := by
    rw [List.find?_eq_none]
    intro entry hmem hsame
    have hentry := hall entry hmem
    rw [beq_iff_eq.1 hsame, hletters, hkind] at hentry
    cases hentry
  unfold Register.resolveAlias
  rw [hnone]

/-- An index behind the name of a class is a destination or one fault, depending on the value of its
expression. -/
theorem registerDestination_of_indexOf {base : String} {kind : RegisterClass}
    (hbase : (base, kind) ∈ RegisterClass.spellings) (hindex : IndexOf index source)
    (hhead : ∃ c rest, index = c :: rest ∧ c.isAlpha = false) :
    registerDestination constants (base.toList ++ index) =
      (evaluate constants source).bind (selected kind) := by
  obtain ⟨c, rest, rfl, hletter⟩ := hhead
  have hletters : ∀ d ∈ (c :: rest).head?, d.isAlpha = false := by simpa using hletter
  obtain ⟨hkind, hdrop⟩ :=
    registerDestination_of_base hbase (resolveAlias_append hbase hletters) hletters
  simp only [registerDestination, hkind, hdrop, registerIndex, indexOf_iff.1 hindex]
  cases evaluate constants source with
  | error fault => cases kind <;> rfl
  | ok value => cases kind <;> rfl

theorem registerDestination_of_evaluate {base : String} {kind : RegisterClass}
    (hbase : (base, kind) ∈ RegisterClass.spellings) (hindex : IndexOf index source)
    (h : constants.evaluate source = .ok value) :
    registerDestination constants (base.toList ++ index) = selected kind value := by
  have hhead : ∃ c rest, index = c :: rest ∧ c.isAlpha = false := by
    cases hindex with
    | enclosed hencloses => exact hencloses.head
    | bare => exact Expression.exists_head_of_evaluate h
  rw [registerDestination_of_indexOf hbase hindex hhead, evaluate_eq_ok_iff.2 h]
  rfl

theorem constantSource_of_sourceExpression {bases : List String} {text : Text} (bits : ℕ)
    (hexpression : sourceExpression bases text = .ok source)
    (h : constants.evaluate source = .ok value) :
    constantSource constants bits bases text = held bits value := by
  have hcapacity : (Bits.capacity bits : ℤ) = 2 ^ bits := Nat.cast_pow 2 bits
  have hrange : (0 ≤ value ∧ value.toNat < Bits.capacity bits) ↔ 0 ≤ value ∧ value < 2 ^ bits := by
    refine and_congr_right fun hnonneg ↦ ?_
    rw [Int.toNat_lt hnonneg, hcapacity]
  unfold constantSource held
  rw [hexpression, Except.ok_bind, evaluate_eq_ok_iff.2 h, Except.ok_bind]
  simp only [hrange]
  rfl

/-- The source of a data move is an expression, or one in brackets behind the name of the vector
memory. -/
theorem sourceExpression_of_encloses (hindex : Encloses index source)
    (h : constants.evaluate source = .ok value) :
    ∀ text ∈ ["VM".toList ++ index, source],
      sourceExpression Opcode.movd.sourceBases text = .ok source := by
  have hbases : ∀ base ∈ Opcode.movd.sourceBases,
      base.toList ≠ [] ∧ ∀ c ∈ base.toList, c.isAlpha = true := by
    simp [Opcode.sourceBases]
  intro text hmem
  rw [sourceExpression_eq_ok_iff hbases]
  rcases List.mem_pair.1 hmem with rfl | rfl
  · exact .inr ⟨"VM", List.mem_singleton.2 rfl, index, rfl, hindex⟩
  · obtain ⟨c, rest, rfl, hletter⟩ := Expression.exists_head_of_evaluate h
    exact .inl ⟨by simpa using hletter, rfl⟩

end Operand

open Operand

namespace Command

variable {constants : Constants} {command : Command}

/-- A load whose source has a value of eight bits has the fault of its destination, or none. -/
theorem resolve_load (hopcode : command.opcode = .ld) {destination other : Text}
    (hraw : command.rawOperands = [destination, other]) {word : UInt16}
    (hother : Yields constants 8 other word) (symbols : Symbols) (count : ℕ) :
    command.resolve constants symbols count =
      .ofExcept ((registerDestination constants destination).map fun register ↦
        [.register register.1 register.2, .constant word]) := by
  have hsource (kind : RegisterClass) :
      constantSource constants kind.sourceBits [] other = .ok word := by
    refine (plainSource_eq_ok_iff kind.sourceBits_le).2 ⟨hother.1, hother.2.trans_le ?_⟩
    cases kind <;> decide
  simp only [resolve, hopcode, hraw, Opcode.family, impliedRegister?, resolveLoad]
  cases registerDestination constants destination with
  | error fault => simp only [hsource]; rfl
  | ok register => simp only [hsource]; rfl

theorem resolve_move (hopcode : command.opcode = .movd) {text : Text}
    (hraw : command.rawOperands = [text]) (symbols : Symbols) (count : ℕ) :
    command.resolve constants symbols count =
      .ofExcept ((constantSource constants Opcode.movd.operandBits Opcode.movd.sourceBases
        text).map fun word ↦ [.constant word]) := by
  simp only [resolve, hopcode, hraw, Opcode.family]
  cases constantSource constants Opcode.movd.operandBits Opcode.movd.sourceBases text <;> rfl

end Command

/-- An index in brackets, of whatever kind, means what its expression means. Behind the name of the
general registers it selects one of eight, and behind that of a counter it has to be zero. As the
source of a data move it is a constant of eight bits, and there the expression may also stand alone.
Any other value is one fault and leaves the command without operands. -/
theorem bracketed_index_resolves {constants : Constants} {source index : Text} {value : ℤ}
    (h : constants.evaluate source = .ok value) (hindex : Encloses index source) :
    registerDestination constants ("REG".toList ++ index) =
      (if 0 ≤ value ∧ value ≤ 7 then .ok (.general, some (UInt8.ofNat value.toNat))
        else .error (.registerOutOfRange value)) ∧
    (∀ base kind, (base, kind) ∈ counters →
      registerDestination constants (base.toList ++ index) =
        if value = 0 then .ok (kind, none) else .error (.noSubregister kind value)) ∧
    ∀ (command : Command) (symbols : Symbols) (count : ℕ),
      (∀ destination other word, command.opcode = .ld →
        command.rawOperands = [destination, other] → Yields constants 8 other word →
          command.resolve constants symbols count =
            match registerDestination constants destination with
            | .ok (kind, selector) =>
              { operands := some [.register kind selector, .constant word] }
            | .error fault => { faults := [fault] }) ∧
      ∀ text ∈ ["VM".toList ++ index, source], command.opcode = .movd →
        command.rawOperands = [text] →
          command.resolve constants symbols count =
            if 0 ≤ value ∧ value ≤ 255 then
              { operands := some [.constant (UInt16.ofNat value.toNat)] }
            else { faults := [.outOfRange value 8] } := by
  refine ⟨?_, fun base kind hbase ↦ ?_, fun command symbols count ↦ ⟨?_, ?_⟩⟩
  · exact registerDestination_of_evaluate (mem_spellings_iff.2 (.inl ⟨rfl, rfl⟩))
      (.enclosed hindex) h
  · rw [registerDestination_of_evaluate (mem_spellings_iff.2 (.inr hbase)) (.enclosed hindex) h,
      selected]
    exact ne_general_of_mem_counters hbase
  · intro destination other word hopcode hraw hother
    rw [Command.resolve_load hopcode hraw hother]
    cases registerDestination constants destination <;> rfl
  · intro text hmem hopcode hraw
    have hheld : constantSource constants Opcode.movd.operandBits Opcode.movd.sourceBases text =
        held 8 value :=
      constantSource_of_sourceExpression _ (sourceExpression_of_encloses hindex h text hmem) h
    have hrange : (0 ≤ value ∧ value < 2 ^ 8) ↔ 0 ≤ value ∧ value ≤ 255 := by omega
    rw [Command.resolve_move hopcode hraw, hheld, held]
    simp only [hrange]
    split <;> rfl

/-- An index in parentheses around an expression that begins and ends with parentheses of its
own. -/
theorem bracketed_index_resolves_nested :
    ∃ (constants : Constants) (source index : Text) (load move : Command),
      source = "(1)+($Last)".toList ∧ index = '(' :: (source ++ [')']) ∧
      constants.evaluate source = .ok 5 ∧
      registerDestination constants ("REG".toList ++ index) = .ok (.general, some 5) ∧
      registerDestination constants ("NLC".toList ++ index) =
        .error (.noSubregister .nestedCounter 5) ∧
      load.rawOperands = ["REG".toList ++ index, "200".toList] ∧
      load.resolve constants .empty 2 =
        { operands := some [.register .general (some 5), .constant 200] } ∧
      move.rawOperands = ["VM".toList ++ index] ∧
      move.resolve constants .empty 2 = { operands := some [.constant 5] } := by
  let constants : Constants := ⟨{ entries := [("LAST".toList, 4)] }⟩
  generalize hsource : "(1)+($Last)".toList = source
  have hvalue : constants.evaluate source = .ok 5 := by
    rw [← hsource]
    decide +kernel
  have hother : Yields constants 8 "200".toList 200 := ⟨by decide +kernel, by decide⟩
  have hencloses : Encloses ('(' :: (source ++ [')'])) source :=
    ⟨by rw [← hsource]; decide, '(', ')', by decide, rfl⟩
  obtain ⟨hregister, hcounter, hcommands⟩ := bracketed_index_resolves hvalue hencloses
  let load : Command :=
    { flags := .empty, opcode := .ld, index := 0, line := 1,
      rawOperands := ["REG".toList ++ '(' :: (source ++ [')']), "200".toList] }
  let move : Command :=
    { flags := .empty, opcode := .movd, index := 1, line := 2,
      rawOperands := ["VM".toList ++ '(' :: (source ++ [')'])] }
  have hload := (hcommands load .empty 2).1 _ _ 200 rfl rfl hother
  have hmove := (hcommands move .empty 2).2 _ (List.mem_pair.2 (.inl rfl)) rfl rfl
  rw [hregister] at hload
  exact ⟨constants, source, _, load, move, rfl, rfl, hvalue, hregister,
    hcounter "NLC" .nestedCounter (by decide), rfl, hload, rfl, hmove⟩

/-! ## Indices without brackets -/

/-- Of the brackets, only parentheses can enclose a text that has a value. -/
theorem Operand.Encloses.of_evaluate {constants : Constants} {source inner : Text} {value : ℤ}
    (hencloses : Encloses source inner) (h : constants.evaluate source = .ok value) :
    source = '(' :: (inner ++ [')']) := by
  obtain ⟨ts, htokens, -⟩ := Expression.evaluate_eq_ok_iff_value.1 h
  have hlexes := (Expression.tokens_eq_ok_iff.1 htokens).1
  have hsquare : '[' ∉ source := hlexes.not_mem (by decide) (by decide) (by decide)
  have hcurly : '\x7b' ∉ source := hlexes.not_mem (by decide) (by decide) (by decide)
  obtain ⟨-, opening, closing, hmem, rfl⟩ := hencloses
  simp only [brackets, List.mem_cons, Prod.mk.injEq, List.not_mem_nil, or_false] at hmem
  obtain ⟨rfl, rfl⟩ | ⟨rfl, rfl⟩ | ⟨rfl, rfl⟩ := hmem
  · exact absurd List.mem_cons_self hsquare
  · rfl
  · exact absurd List.mem_cons_self hcurly

/-- An index with a value and no brackets around it is read as the expression that it is, unless its
first and its last parenthesis are taken for brackets. -/
theorem Operand.exists_indexOf_of_not_isSplit {constants : Constants} {source : Text} {value : ℤ}
    (h : constants.evaluate source = .ok value) (hsplit : ¬ Expression.IsSplit source) :
    ∃ expression, IndexOf source expression ∧ constants.evaluate expression = .ok value := by
  by_cases hopen : ∃ inner, Encloses source inner
  · obtain ⟨inner, hencloses⟩ := hopen
    have hsource := hencloses.of_evaluate h
    refine ⟨inner, .enclosed hencloses, Expression.evaluate_inner (hsource ▸ h) fun hreaches ↦ ?_⟩
    exact hsplit ⟨inner, hsource, hreaches⟩
  · exact ⟨source, .bare (not_exists.1 hopen), h⟩

/-- An index without brackets selects the register that it selects in brackets, except that its
first and its last parenthesis are dropped without regard to what they belong to. What is left of an
index in which the first is closed before the last is no expression, and the index is refused. -/
theorem bare_index_resolves {constants : Constants} {source : Text} {value : ℤ}
    (h : constants.evaluate source = .ok value) (hrange : 0 ≤ value ∧ value ≤ 7) :
    (∀ index, Encloses index source → registerDestination constants ("REG".toList ++ index) =
      .ok (.general, some (UInt8.ofNat value.toNat))) ∧
    (¬ Expression.IsSplit source → registerDestination constants ("REG".toList ++ source) =
      .ok (.general, some (UInt8.ofNat value.toNat))) ∧
    (Expression.IsSplit source → ∃ inner fault, source = '(' :: (inner ++ [')']) ∧
      constants.evaluate inner = .error fault ∧
      registerDestination constants ("REG".toList ++ source) =
        .error (.badExpression inner fault)) := by
  have hbase : ("REG", RegisterClass.general) ∈ RegisterClass.spellings := by decide
  have hselected : selected .general value = .ok (.general, some (UInt8.ofNat value.toNat)) :=
    if_pos hrange
  refine ⟨fun index hindex ↦ ?_, fun hwhole ↦ ?_, fun hsplit ↦ ?_⟩
  · rw [registerDestination_of_evaluate hbase (.enclosed hindex) h, hselected]
  · obtain ⟨expression, hindex, hvalue⟩ := exists_indexOf_of_not_isSplit h hwhole
    rw [registerDestination_of_evaluate hbase hindex hvalue, hselected]
  · obtain ⟨inner, rfl, hreaches⟩ := hsplit
    have hne : inner ≠ [] := by
      rintro rfl
      exact absurd (Nesting.reaches_nil_iff.1 hreaches) (by decide)
    have hencloses : Encloses ('(' :: (inner ++ [')'])) inner := ⟨hne, '(', ')', by decide, rfl⟩
    cases hinner : constants.evaluate inner with
    | ok other => exact absurd hreaches (Expression.not_reaches_of_evaluate hinner)
    | error fault =>
      refine ⟨inner, fault, rfl, hinner, ?_⟩
      rw [registerDestination_of_indexOf hbase (.enclosed hencloses) hencloses.head, evaluate,
        hinner]
      rfl

/-- Parentheses around a sum of parentheses belong together. -/
theorem bare_index_resolves_nested :
    ∃ inner source : Text, inner = "(1)+(2)".toList ∧ source = '(' :: (inner ++ [')']) ∧
      Constants.initial.evaluate source = .ok 3 ∧ ¬ Expression.IsSplit source ∧
      registerDestination .initial ("REG".toList ++ source) = .ok (.general, some 3) := by
  have hvalue : Constants.initial.evaluate ('(' :: ("(1)+(2)".toList ++ [')'])) = .ok 3 := by
    decide +kernel
  have hwhole : ¬ Expression.IsSplit ('(' :: ("(1)+(2)".toList ++ [')'])) := by
    rintro ⟨inner, hsource, hreaches⟩
    rw [← List.append_cancel_right (List.cons.inj hsource).2] at hreaches
    simp [Nesting.reaches_cons_iff, Nesting.reaches_nil_iff, Expression.charNesting] at hreaches
  exact ⟨_, _, rfl, rfl, hvalue, hwhole, (bare_index_resolves hvalue (by decide)).2.1 hwhole⟩

/-- A sum of parentheses has a value and selects a register in brackets, but not without them. -/
theorem bare_index_refused_sum :
    Constants.initial.evaluate "(1)+(2)".toList = .ok 3 ∧
      ("(1)+(2)".toList.all fun c ↦ !Text.isBlank c && c != ',') = true ∧
      registerDestination .initial "REG[(1)+(2)]".toList = .ok (.general, some 3) ∧
      registerDestination .initial "REG(1)+(2)".toList =
        .error (.badExpression "1)+(2".toList (.unexpected ")".toList)) := by
  decide +kernel

end Sequencer
