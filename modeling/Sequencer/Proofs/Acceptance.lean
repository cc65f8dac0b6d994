import Mathlib
import Sequencer.Operand.Resolution
import Sequencer.Proofs.Evaluation

/-!
# Rules for written operands

Each family of opcodes has a rule that says which written operands it accepts and what they mean. A
rule speaks of the command alone, of the values of its expressions and of the command that a branch
names. Resolution finds no fault just where the rule holds, and gives the operands of the rule.
-/

namespace Sequencer

namespace Expression

theorem Lexes.not_isAlpha {c : Char} {rest : Text} {ts : List Token} (h : Lexes (c :: rest) ts) :
    c.isAlpha = false := by
  by_contra halpha
  have hletter : c.isAlpha = true := by simpa using halpha
  have hword : Text.isWord c = true := by simp [Text.isWord, Char.isAlphanum, hletter]
  cases h with
  | blank hblank =>
    rw [Text.isBlank_of_isWord hword] at hblank
    cases hblank
  | symbol hmem =>
    rw [(symbols_spec hmem).2.1] at hword
    cases hword
  | name => exact absurd hletter (by decide)
  | number hdigit =>
    simp only [Char.isAlpha, Char.isUpper, Char.isLower, Char.isDigit, Bool.or_eq_true,
      Bool.and_eq_true, decide_eq_true_eq, ge_iff_le, UInt32.le_iff_toNat_le] at hletter hdigit
    have hlow : (0x41 : ℕ) ≤ c.val.toNat := hletter.elim (fun h ↦ h.1) fun h ↦
      le_trans (by decide) h.1
    have hhigh : c.val.toNat ≤ (0x39 : ℕ) := hdigit.2
    omega

/-- An expression that has a value is not empty and does not begin with a letter. -/
theorem exists_head_of_evaluate {lookup : Text → Option ℤ} {source : Text} {value : ℤ}
    (h : evaluate lookup source = .ok value) :
    ∃ c rest, source = c :: rest ∧ c.isAlpha = false := by
  obtain ⟨ts, htokens, hvalue⟩ := evaluate_eq_ok_iff_value.1 h
  cases source with
  | nil =>
    obtain rfl : [] = ts := Except.ok.inj htokens
    simp [Expression.value, State.finish, pure, Except.pure, bind, Except.bind] at hvalue
  | cons c rest => exact ⟨c, rest, rfl, (tokens_eq_ok_iff.1 htokens).1.not_isAlpha⟩

end Expression

namespace Operand

/-! ## Brackets -/

def brackets : List (Char × Char) := [('[', ']'), ('(', ')'), ('\x7b', '\x7d')]

/-- A text in a pair of brackets, with something between them. -/
def Encloses (text inner : Text) : Prop :=
  inner ≠ [] ∧ ∃ opening closing, (opening, closing) ∈ brackets ∧
    text = opening :: (inner ++ [closing])

theorem closing?_eq_some_iff {opening closing : Char} :
    closing? opening = some closing ↔ (opening, closing) ∈ brackets := by
  simp only [brackets, List.mem_cons, Prod.mk.injEq, List.not_mem_nil, or_false]
  unfold closing?
  split <;> simp_all [eq_comm]

theorem stripBrackets_eq_some_iff {text inner : Text} :
    stripBrackets text = some inner ↔ Encloses text inner := by
  cases text with
  | nil => simp [stripBrackets, Encloses]
  | cons c rest =>
    simp only [Encloses, List.cons.injEq, ← closing?_eq_some_iff, stripBrackets]
    constructor
    · intro h
      split at h
      · cases h
      · next closing hclosing =>
        rw [Option.ite_none_right_eq_some] at h
        obtain ⟨⟨hlast, hlength⟩, hinner⟩ := h
        obtain rfl := Option.some.inj hinner
        refine ⟨?_, c, closing, hclosing, rfl, ?_⟩
        · rw [← List.length_pos_iff, List.length_dropLast]
          omega
        · exact (List.dropLast_append_getLast? closing hlast).symm
    · rintro ⟨hinner, opening, closing, hclosing, rfl, rfl⟩
      have hlength : 0 < inner.length := List.length_pos_iff.2 hinner
      simp only [hclosing]
      rw [if_pos ⟨List.getLast?_concat, by rw [List.length_append, List.length_singleton]; omega⟩,
        List.dropLast_concat]

theorem Encloses.head {text inner : Text} (h : Encloses text inner) :
    ∃ c rest, text = c :: rest ∧ c.isAlpha = false := by
  obtain ⟨-, opening, closing, hmem, rfl⟩ := h
  refine ⟨opening, _, rfl, ?_⟩
  simp only [brackets, List.mem_cons, Prod.mk.injEq, List.not_mem_nil, or_false] at hmem
  obtain ⟨rfl, -⟩ | ⟨rfl, -⟩ | ⟨rfl, -⟩ := hmem <;> decide

/-- The expression of an index: what a pair of brackets around all of it encloses, or else all of
it. -/
inductive IndexOf (text : Text) : Text → Prop where
  | enclosed {inner : Text} (encloses : Encloses text inner) : IndexOf text inner
  | bare (open_text : ∀ inner, ¬ Encloses text inner) : IndexOf text text

theorem indexOf_iff {text expression : Text} :
    IndexOf text expression ↔ (stripBrackets text).getD text = expression := by
  cases hstrip : stripBrackets text with
  | none =>
    have hopen (inner : Text) : ¬ Encloses text inner := by
      simp [← stripBrackets_eq_some_iff, hstrip]
    constructor
    · rintro (hencloses | -)
      · exact absurd hencloses (hopen _)
      · rfl
    · rintro rfl
      exact .bare hopen
  | some inner =>
    have hencloses := stripBrackets_eq_some_iff.1 hstrip
    constructor
    · rintro (hother | hopen)
      · rw [← stripBrackets_eq_some_iff, hstrip] at hother
        exact Option.some.inj hother
      · exact absurd hencloses (hopen inner)
    · rintro rfl
      exact .enclosed hencloses

/-! ## Sources -/

variable {constants : Constants}

/-- An expression has a value of so many bits. -/
def Yields (constants : Constants) (bits : ℕ) (source : Text) (value : UInt16) : Prop :=
  constants.evaluate source = .ok value.toNat ∧ value.toNat < 2 ^ bits

theorem evaluate_eq_ok_iff {source : Text} {value : ℤ} :
    evaluate constants source = .ok value ↔ constants.evaluate source = .ok value :=
  Except.mapError_eq_ok_iff

section

variable {bases : List String}

theorem sourceExpression_eq_ok_iff {source expression : Text}
    (hbases : ∀ base ∈ bases, base.toList ≠ [] ∧ ∀ c ∈ base.toList, c.isAlpha = true) :
    sourceExpression bases source = .ok expression ↔
      (∀ c ∈ source.head?, c.isAlpha = false) ∧ source = expression ∨
        ∃ base ∈ bases, ∃ index, source = base.toList ++ index ∧ Encloses index expression := by
  constructor
  · intro h
    unfold sourceExpression at h
    split at h
    · next hnone =>
      refine .inl ⟨?_, Except.ok.inj h⟩
      cases source with
      | nil => simp
      | cons c rest => simpa using hnone
    · next letters _ =>
      split at h
      · next hbase =>
        obtain ⟨base, hmem, hsame⟩ := List.any_eq_true.1 hbase
        split at h
        · next inner hinner =>
          obtain rfl := Except.ok.inj h
          refine .inr ⟨base, hmem, source.dropWhile Char.isAlpha, ?_,
            stripBrackets_eq_some_iff.1 hinner⟩
          rw [beq_iff_eq.1 hsame, List.takeWhile_append_dropWhile]
        · cases h
      · cases h
  · rintro (⟨hhead, rfl⟩ | ⟨base, hmem, index, rfl, hencloses⟩)
    · have hnone : source.takeWhile Char.isAlpha = [] :=
        (Text.span_append [] source (by simp) hhead).1
      simp [sourceExpression, hnone]
    · obtain ⟨c, rest, hindex, hletter⟩ := hencloses.head
      obtain ⟨hletters, hrest⟩ := Text.span_append base.toList index (hbases base hmem).2
        (by rw [hindex]; simpa using hletter)
      unfold sourceExpression
      rw [hletters, hrest, stripBrackets_eq_some_iff.2 hencloses]
      split
      · next hempty => exact absurd hempty (hbases base hmem).1
      · have hany : (bases.any fun other ↦ other.toList == base.toList) = true :=
          List.any_eq_true.2 ⟨base, hmem, beq_self_eq_true _⟩
        rw [if_pos hany]

theorem constantSource_eq_ok_iff_yields {bits : ℕ} (hbits : bits ≤ 16) {source : Text}
    {value : UInt16} :
    constantSource constants bits bases source = .ok value ↔
      ∃ expression, sourceExpression bases source = .ok expression ∧
        Yields constants bits expression value := by
  have hcapacity : 2 ^ bits ≤ 2 ^ 16 := Nat.pow_le_pow_right (by norm_num) hbits
  unfold constantSource
  rw [Except.bind_eq_ok_iff]
  refine exists_congr fun expression ↦ and_congr_right fun _ ↦ ?_
  rw [Except.bind_eq_ok_iff]
  simp only [evaluate_eq_ok_iff, Yields]
  constructor
  · rintro ⟨number, hnumber, h⟩
    split at h
    · next hrange =>
      obtain rfl := Except.ok.inj h
      have hlt : number.toNat < 2 ^ bits := hrange.2
      rw [UInt16.toNat_ofNat_of_lt' (hlt.trans_le hcapacity), Int.toNat_of_nonneg hrange.1]
      exact ⟨hnumber, hlt⟩
    · cases h
  · rintro ⟨hnumber, hlt⟩
    refine ⟨_, hnumber, ?_⟩
    rw [if_pos ⟨Int.natCast_nonneg _, hlt⟩, Int.toNat_natCast, UInt16.ofNat_toNat]
    rfl

/-- A source is an expression, or an expression in brackets after one of the bases. -/
theorem constantSource_eq_ok_iff {bits : ℕ} (hbits : bits ≤ 16) {source : Text} {value : UInt16}
    (hbases : ∀ base ∈ bases, base.toList ≠ [] ∧ ∀ c ∈ base.toList, c.isAlpha = true) :
    constantSource constants bits bases source = .ok value ↔
      Yields constants bits source value ∨
        ∃ base ∈ bases, ∃ index expression, source = base.toList ++ index ∧
          Encloses index expression ∧ Yields constants bits expression value := by
  rw [constantSource_eq_ok_iff_yields hbits]
  simp only [sourceExpression_eq_ok_iff hbases]
  constructor
  · rintro ⟨expression, ⟨-, rfl⟩ | ⟨base, hmem, index, hsource, hencloses⟩, hyields⟩
    · exact .inl hyields
    · exact .inr ⟨base, hmem, index, expression, hsource, hencloses, hyields⟩
  · rintro (hyields | ⟨base, hmem, index, expression, hsource, hencloses, hyields⟩)
    · obtain ⟨c, rest, rfl, hletter⟩ := Expression.exists_head_of_evaluate hyields.1
      exact ⟨_, .inl ⟨by simpa using hletter, rfl⟩, hyields⟩
    · exact ⟨expression, .inr ⟨base, hmem, index, hsource, hencloses⟩, hyields⟩

end

/-! ## Destinations -/

def counters : List (String × RegisterClass) :=
  [("CC", .counter), ("LC", .counter), ("CLC", .counter), ("NC", .nestedCounter),
    ("NLC", .nestedCounter)]

/-- The register that a destination names. A general register has an index up to seven; the index of
a counter is left out or zero. -/
inductive Names (constants : Constants) (destination : Text) :
    RegisterClass → Option UInt8 → Prop where
  | general {rest expression : Text} {index : UInt8}
      (name_eq : Register.resolveAlias destination = "REG".toList ++ rest)
      (index_of : IndexOf rest expression)
      (evaluate_eq : constants.evaluate expression = .ok index.toNat)
      (index_le : index.toNat ≤ 7) : Names constants destination .general (some index)
  | counter {base : String} {kind : RegisterClass} {rest : Text}
      (base_mem : (base, kind) ∈ counters)
      (name_eq : Register.resolveAlias destination = base.toList ++ rest)
      (index_zero : rest = [] ∨
        ∃ expression, IndexOf rest expression ∧ constants.evaluate expression = .ok 0) :
      Names constants destination kind none

theorem ofBase?_eq_some_iff {base : Text} {kind : RegisterClass} :
    RegisterClass.ofBase? base = some kind ↔
      ∃ spelling, (spelling, kind) ∈ RegisterClass.spellings ∧ spelling.toList = base := by
  unfold RegisterClass.ofBase?
  rw [Option.map_eq_some_iff]
  constructor
  · rintro ⟨⟨spelling, found⟩, hfind, rfl⟩
    exact ⟨spelling, List.mem_of_find?_eq_some hfind, by simpa using List.find?_some hfind⟩
  · rintro ⟨spelling, hmem, rfl⟩
    simp only [RegisterClass.spellings, List.mem_cons, Prod.mk.injEq, List.not_mem_nil,
      or_false] at hmem
    obtain ⟨rfl, rfl⟩ | ⟨rfl, rfl⟩ | ⟨rfl, rfl⟩ | ⟨rfl, rfl⟩ | ⟨rfl, rfl⟩ | ⟨rfl, rfl⟩ := hmem <;>
      exact ⟨_, rfl, rfl⟩

theorem isAlpha_of_mem_spellings {spelling : String} {kind : RegisterClass}
    (h : (spelling, kind) ∈ RegisterClass.spellings) : ∀ c ∈ spelling.toList, c.isAlpha = true := by
  have hall : ∀ entry ∈ RegisterClass.spellings, entry.1.toList.all Char.isAlpha = true := by
    decide +kernel
  exact List.all_eq_true.1 (hall _ h)

theorem mem_spellings_iff {spelling : String} {kind : RegisterClass} :
    (spelling, kind) ∈ RegisterClass.spellings ↔
      spelling = "REG" ∧ kind = .general ∨ (spelling, kind) ∈ counters := by
  have hperm : RegisterClass.spellings.Perm (("REG", .general) :: counters) := by decide
  rw [hperm.mem_iff, List.mem_cons, Prod.mk.injEq]

theorem ne_general_of_mem_counters {spelling : String} {kind : RegisterClass}
    (h : (spelling, kind) ∈ counters) : kind ≠ .general := by
  rintro rfl
  simp [counters] at h

theorem registerIndex_eq_none_iff {rest : Text} :
    registerIndex constants rest = .ok none ↔ rest = [] := by
  cases rest with
  | nil => simp [registerIndex]
  | cons c rest => simp [registerIndex, Except.map_eq_ok_iff]

theorem registerIndex_eq_some_iff {rest : Text} {index : ℤ} :
    registerIndex constants rest = .ok (some index) ↔
      ∃ expression, IndexOf rest expression ∧ constants.evaluate expression = .ok index := by
  simp only [indexOf_iff, exists_eq_left']
  cases rest with
  | nil =>
    simp only [registerIndex, Except.ok.injEq, reduceCtorEq, false_iff]
    intro h
    obtain ⟨c, rest, hnil, -⟩ := Expression.exists_head_of_evaluate h
    cases hnil
  | cons c rest => simp [registerIndex, Except.map_eq_ok_iff, evaluate_eq_ok_iff]

/-- An index does not begin with a letter. -/
theorem IndexOf.head {rest expression : Text} (h : IndexOf rest expression) {index : ℤ}
    (hindex : constants.evaluate expression = .ok index) :
    ∀ c ∈ rest.head?, c.isAlpha = false := by
  obtain ⟨c, tail, rfl, hletter⟩ : ∃ c tail, rest = c :: tail ∧ c.isAlpha = false := by
    cases h with
    | enclosed hencloses => exact hencloses.head
    | bare => exact Expression.exists_head_of_evaluate hindex
  simpa using hletter

theorem registerDestination_of_base {destination rest : Text} {base : String} {kind : RegisterClass}
    (hbase : (base, kind) ∈ RegisterClass.spellings)
    (hname : Register.resolveAlias destination = base.toList ++ rest)
    (hrest : ∀ c ∈ rest.head?, c.isAlpha = false) :
    RegisterClass.ofBase? ((Register.resolveAlias destination).takeWhile Char.isAlpha) = some kind ∧
      (Register.resolveAlias destination).dropWhile Char.isAlpha = rest := by
  obtain ⟨hletters, hdrop⟩ :=
    Text.span_append base.toList rest (isAlpha_of_mem_spellings hbase) hrest
  rw [hname, hletters, hdrop]
  exact ⟨ofBase?_eq_some_iff.2 ⟨base, hbase, rfl⟩, rfl⟩

theorem registerDestination_of_names {destination : Text} {kind : RegisterClass}
    {index : Option UInt8} (h : Names constants destination kind index) :
    registerDestination constants destination = .ok (kind, index) := by
  cases h with
  | @general rest expression index name_eq index_of evaluate_eq index_le =>
    obtain ⟨hkind, hrest⟩ := registerDestination_of_base (mem_spellings_iff.2 (.inl ⟨rfl, rfl⟩))
      name_eq (index_of.head evaluate_eq)
    have hindex : registerIndex constants rest = .ok (some (index.toNat : ℤ)) :=
      registerIndex_eq_some_iff.2 ⟨expression, index_of, evaluate_eq⟩
    have hrange : (0 : ℤ) ≤ index.toNat ∧ (index.toNat : ℤ) ≤ (Register.maxIndex : ℕ) :=
      ⟨Int.natCast_nonneg _, by exact_mod_cast index_le⟩
    simp only [registerDestination, hkind, hrest, hindex, Except.ok_bind]
    rw [if_pos hrange, Int.toNat_natCast, UInt8.ofNat_toNat]
    rfl
  | @counter base kind rest base_mem name_eq index_zero =>
    have hrest : ∀ c ∈ rest.head?, c.isAlpha = false := by
      obtain rfl | ⟨expression, index_of, hzero⟩ := index_zero
      · simp
      · exact index_of.head hzero
    obtain ⟨hkind, hrest⟩ :=
      registerDestination_of_base (mem_spellings_iff.2 (.inr base_mem)) name_eq hrest
    have hgeneral := ne_general_of_mem_counters base_mem
    have hindex : registerIndex constants rest = .ok none ∨
        registerIndex constants rest = .ok (some 0) :=
      index_zero.imp registerIndex_eq_none_iff.2 registerIndex_eq_some_iff.2
    simp only [registerDestination, hkind, hrest]
    obtain hindex | hindex := hindex <;> rw [hindex] <;> cases kind <;> first
      | exact absurd rfl hgeneral
      | rfl

theorem names_of_registerDestination {destination : Text} {kind : RegisterClass}
    {index : Option UInt8} (h : registerDestination constants destination = .ok (kind, index)) :
    Names constants destination kind index := by
  unfold registerDestination at h
  dsimp only at h
  split at h
  · cases h
  · next found hfound =>
    obtain ⟨base, hbase, htake⟩ := ofBase?_eq_some_iff.1 hfound
    have hname : Register.resolveAlias destination =
        base.toList ++ (Register.resolveAlias destination).dropWhile Char.isAlpha := by
      rw [htake, List.takeWhile_append_dropWhile]
    generalize (Register.resolveAlias destination).dropWhile Char.isAlpha = rest at h hname
    have hcounter (hgeneral : found ≠ .general) : (base, found) ∈ counters :=
      (mem_spellings_iff.1 hbase).resolve_left fun hboth ↦ hgeneral hboth.2
    obtain ⟨number, hnumber, hselect⟩ := Except.bind_eq_ok_iff.1 h
    split at hselect
    · cases hselect
    · next value =>
      split at hselect
      · next hrange =>
        obtain ⟨rfl, rfl⟩ := Prod.mk.inj (Except.ok.inj hselect)
        obtain ⟨expression, hexpression, hvalue⟩ := registerIndex_eq_some_iff.1 hnumber
        have hbase : base = "REG" :=
          ((mem_spellings_iff.1 hbase).resolve_right fun hmem ↦
            ne_general_of_mem_counters hmem rfl).1
        have hmax : Register.maxIndex = 7 := rfl
        have hindex : (UInt8.ofNat value.toNat).toNat = value.toNat :=
          UInt8.toNat_ofNat_of_lt' (by change _ < 256; omega)
        refine .general (hbase ▸ hname) hexpression ?_ ?_
        · rw [hindex, Int.toNat_of_nonneg hrange.1]
          exact hvalue
        · omega
      · cases hselect
    · next hgeneral =>
      obtain ⟨rfl, rfl⟩ := Prod.mk.inj (Except.ok.inj hselect)
      exact .counter (hcounter hgeneral) hname (.inl (registerIndex_eq_none_iff.1 hnumber))
    · next value hgeneral =>
      split at hselect
      · next hzero =>
        subst hzero
        obtain ⟨rfl, rfl⟩ := Prod.mk.inj (Except.ok.inj hselect)
        exact .counter (hcounter hgeneral) hname (.inr (registerIndex_eq_some_iff.1 hnumber))
      · cases hselect

end Operand

/-! ## Commands -/

theorem Opcode.operandBits_eq (opcode : Opcode) :
    opcode.operandBits = if opcode = .unused3 then 11 else 8 := by
  cases opcode <;> rfl

theorem Opcode.operandBits_le (opcode : Opcode) : opcode.operandBits ≤ 16 := by
  cases opcode <;> decide

theorem RegisterClass.sourceBits_eq (kind : RegisterClass) :
    kind.sourceBits = if kind = .general then 8 else 12 := by
  cases kind <;> rfl

theorem RegisterClass.sourceBits_le (kind : RegisterClass) : kind.sourceBits ≤ 16 := by
  cases kind <;> decide

namespace Command

open Operand

/-- The operands that the family of its opcode gives to a command. -/
inductive Accepts (constants : Constants) (symbols : Symbols) (count : ℕ) (command : Command) :
    List Operand → Prop where
  | load {destination source : Text} {kind : RegisterClass} {index : Option UInt8} {value : UInt16}
      (opcode_eq : command.opcode = .ld) (raw_eq : command.rawOperands = [destination, source])
      (names : Names constants destination kind index)
      (yields : Yields constants (if kind = .general then 8 else 12) source value) :
      Accepts constants symbols count command [.register kind index, .constant value]
  | loadCounter {source : Text} {value : UInt16} (opcode_eq : command.opcode = .ldCc)
      (raw_eq : command.rawOperands = [source]) (yields : Yields constants 12 source value) :
      Accepts constants symbols count command [.register .counter none, .constant value]
  | loadNested {source : Text} {value : UInt16} (opcode_eq : command.opcode = .ldNc)
      (raw_eq : command.rawOperands = [source]) (yields : Yields constants 12 source value) :
      Accepts constants symbols count command [.register .nestedCounter none, .constant value]
  | branch {name : Text} {symbol : Symbol} (family_eq : command.opcode.family = .branch)
      (raw_eq : command.rawOperands = [name]) (get_eq : symbols.get? name = some symbol)
      (index_lt : symbol.commandIndex < count) :
      Accepts constants symbols count command [.address name]
  | immediate {source : Text} {value : UInt16}
      (family_eq : command.opcode.family = .singleImmediate)
      (raw_eq : command.rawOperands = [source])
      (yields : Yields constants (if command.opcode = .unused3 then 11 else 8) source value) :
      Accepts constants symbols count command [.constant value]
  | moveFrom {index expression : Text} {value : UInt16} (opcode_eq : command.opcode = .movd)
      (raw_eq : command.rawOperands = ["VM".toList ++ index])
      (encloses : Encloses index expression) (yields : Yields constants 8 expression value) :
      Accepts constants symbols count command [.constant value]
  | pause (opcode_eq : command.opcode = .noopC) (raw_eq : command.rawOperands = []) :
      Accepts constants symbols count command [.constant 0]
  | longPause {source : Text} {value : UInt16} (opcode_eq : command.opcode = .noopC)
      (raw_eq : command.rawOperands = [source]) (yields : Yields constants 8 source value) :
      Accepts constants symbols count command [.constant value]
  | bare (family_eq : command.opcode.family = .zeroOperand) (raw_eq : command.rawOperands = []) :
      Accepts constants symbols count command []

variable {constants : Constants} {symbols : Symbols} {count : ℕ} {command : Command}
  {operands : List Operand}

theorem plainSource_eq_ok_iff {bits : ℕ} (hbits : bits ≤ 16) {source : Text} {value : UInt16} :
    constantSource constants bits [] source = .ok value ↔ Yields constants bits source value := by
  rw [constantSource_eq_ok_iff hbits (by simp)]
  simp

/-- The sources of an opcode: those of a move may stand in brackets after a base. -/
theorem immediateSource_eq_ok_iff (opcode : Opcode) {source : Text} {value : UInt16} :
    constantSource constants opcode.operandBits opcode.sourceBases source = .ok value ↔
      Yields constants (if opcode = .unused3 then 11 else 8) source value ∨
        opcode = .movd ∧ ∃ index expression, source = "VM".toList ++ index ∧
          Encloses index expression ∧ Yields constants 8 expression value := by
  rw [← opcode.operandBits_eq]
  by_cases hmove : opcode = .movd
  · subst hmove
    rw [constantSource_eq_ok_iff (Opcode.operandBits_le _)]
    · simp [Opcode.sourceBases, Opcode.operandBits]
    · simp [Opcode.sourceBases]
  · have hbases : opcode.sourceBases = [] := by
      cases opcode <;> first
        | rfl
        | exact absurd rfl hmove
    rw [hbases, plainSource_eq_ok_iff opcode.operandBits_le]
    simp [hmove]

theorem resolve_of_accepts (h : command.Accepts constants symbols count operands) :
    command.resolve constants symbols count = { operands := some operands } := by
  cases h with
  | @load destination source kind index value opcode_eq raw_eq names yields =>
    rw [← kind.sourceBits_eq] at yields
    simp only [resolve, opcode_eq, raw_eq, Opcode.family, impliedRegister?, resolveLoad,
      registerDestination_of_names names, (plainSource_eq_ok_iff kind.sourceBits_le).2 yields]
    rfl
  | loadCounter opcode_eq raw_eq yields =>
    have hsource := (plainSource_eq_ok_iff (RegisterClass.sourceBits_le .counter)).2 yields
    simp only [resolve, opcode_eq, raw_eq, Opcode.family, impliedRegister?, hsource]
    rfl
  | loadNested opcode_eq raw_eq yields =>
    have hsource := (plainSource_eq_ok_iff (RegisterClass.sourceBits_le .nestedCounter)).2 yields
    simp only [resolve, opcode_eq, raw_eq, Opcode.family, impliedRegister?, hsource]
    rfl
  | branch family_eq raw_eq get_eq index_lt =>
    simp only [resolve, family_eq, raw_eq, resolveBranch, get_eq, if_pos index_lt]
    rfl
  | immediate family_eq raw_eq yields =>
    simp only [resolve, family_eq, raw_eq, (immediateSource_eq_ok_iff _).2 (.inl yields)]
    rfl
  | moveFrom opcode_eq raw_eq encloses yields =>
    have hsource := (immediateSource_eq_ok_iff .movd).2 (.inr ⟨rfl, _, _, rfl, encloses, yields⟩)
    simp only [resolve, opcode_eq, raw_eq, Opcode.family, hsource]
    rfl
  | pause opcode_eq raw_eq => simp only [resolve, opcode_eq, raw_eq, Opcode.family]
  | longPause opcode_eq raw_eq yields =>
    have hsource := (immediateSource_eq_ok_iff .noopC).2 (.inl yields)
    simp only [resolve, opcode_eq, raw_eq, Opcode.family, hsource]
    rfl
  | bare family_eq raw_eq => simp only [resolve, family_eq, raw_eq]

theorem exists_of_ofExcept {α : Type} {outcome : Except OperandFault α} {make : α → List Operand}
    (h : (Resolution.ofExcept do let a ← outcome; return make a).faults = []) :
    ∃ a, outcome = .ok a := by
  cases outcome with
  | error fault => cases h
  | ok a => exact ⟨a, rfl⟩

theorem impliedRegister?_eq_some {opcode : Opcode} {kind : RegisterClass}
    (h : impliedRegister? opcode = some kind) :
    opcode = .ldCc ∧ kind = .counter ∨ opcode = .ldNc ∧ kind = .nestedCounter := by
  unfold impliedRegister? at h
  split at h
  · exact .inl ⟨rfl, (Option.some.inj h).symm⟩
  · exact .inr ⟨rfl, (Option.some.inj h).symm⟩
  · cases h

theorem exists_accepts_implied {kind : RegisterClass} {source : Text} {value : UInt16}
    (himplied : impliedRegister? command.opcode = some kind)
    (hraw : command.rawOperands = [source])
    (hvalue : constantSource constants kind.sourceBits [] source = .ok value) :
    ∃ operands, command.Accepts constants symbols count operands := by
  have hyields := (plainSource_eq_ok_iff kind.sourceBits_le).1 hvalue
  obtain ⟨hopcode, rfl⟩ | ⟨hopcode, rfl⟩ := impliedRegister?_eq_some himplied
  · exact ⟨_, .loadCounter hopcode hraw hyields⟩
  · exact ⟨_, .loadNested hopcode hraw hyields⟩

theorem exists_accepts_load {destination source : Text} (hopcode : command.opcode = .ld)
    (hraw : command.rawOperands = [destination, source])
    (h : (resolveLoad constants destination source).faults = []) :
    ∃ operands, command.Accepts constants symbols count operands := by
  unfold resolveLoad at h
  split at h
  · next kind index hdestination =>
    obtain ⟨value, hvalue⟩ := exists_of_ofExcept h
    have hyields := (plainSource_eq_ok_iff kind.sourceBits_le).1 hvalue
    rw [kind.sourceBits_eq] at hyields
    exact ⟨_, .load hopcode hraw (names_of_registerDestination hdestination) hyields⟩
  · split at h <;> simp at h

theorem exists_accepts_branch {name : Text} (hfamily : command.opcode.family = .branch)
    (hraw : command.rawOperands = [name])
    (h : (Resolution.ofExcept (resolveBranch symbols count command.opcode name)).faults = []) :
    ∃ operands, command.Accepts constants symbols count operands := by
  unfold resolveBranch at h
  split at h
  · cases h
  · next symbol hsymbol =>
    split at h
    · next hindex => exact ⟨_, .branch hfamily hraw hsymbol hindex⟩
    · cases h

/-- A command without faults is accepted. -/
theorem exists_accepts_of_faults_eq_nil
    (h : (command.resolve constants symbols count).faults = []) :
    ∃ operands, command.Accepts constants symbols count operands := by
  unfold resolve at h
  cases hfamily : command.opcode.family with
  | registerLoad =>
    simp only [hfamily] at h
    split at h
    · next himplied hraw =>
      obtain ⟨value, hvalue⟩ := exists_of_ofExcept h
      exact exists_accepts_implied himplied hraw hvalue
    · cases h
    · next himplied hraw =>
      have hopcode : command.opcode = .ld := by
        cases hopcode : command.opcode <;> simp_all [Opcode.family, impliedRegister?]
      exact exists_accepts_load hopcode hraw h
    · cases h
  | branch =>
    simp only [hfamily] at h
    split at h
    · next hraw => exact exists_accepts_branch hfamily hraw h
    · cases h
  | singleImmediate =>
    simp only [hfamily] at h
    split at h
    · next hraw =>
      obtain ⟨value, hvalue⟩ := exists_of_ofExcept h
      obtain hyields | ⟨hopcode, index, expression, rfl, hencloses, hyields⟩ :=
        (immediateSource_eq_ok_iff _).1 hvalue
      · exact ⟨_, .immediate hfamily hraw hyields⟩
      · exact ⟨_, .moveFrom hopcode hraw hencloses hyields⟩
    · cases h
  | optionalImmediate =>
    have hopcode : command.opcode = .noopC := by
      cases hopcode : command.opcode <;> simp [hopcode, Opcode.family] at hfamily
      rfl
    simp only [hfamily] at h
    split at h
    · next hraw => exact ⟨_, .pause hopcode hraw⟩
    · next hraw =>
      obtain ⟨value, hvalue⟩ := exists_of_ofExcept h
      rw [hopcode, immediateSource_eq_ok_iff] at hvalue
      exact ⟨_, .longPause hopcode hraw (hvalue.resolve_right (by simp))⟩
    · cases h
  | zeroOperand =>
    simp only [hfamily] at h
    split at h
    · next hraw => exact ⟨_, .bare hfamily hraw⟩
    · cases h

theorem resolve_eq_iff : command.resolve constants symbols count = { operands := some operands } ↔
    command.Accepts constants symbols count operands := by
  refine ⟨fun h ↦ ?_, resolve_of_accepts⟩
  obtain ⟨found, haccepts⟩ := exists_accepts_of_faults_eq_nil
    (show (command.resolve constants symbols count).faults = [] by rw [h])
  rw [resolve_of_accepts haccepts, Resolution.mk.injEq, Option.some.injEq] at h
  exact h.2 ▸ haccepts

end Command

end Sequencer
