import Mathlib
import Sequencer.Settings
import Sequencer.Proofs.Assembly
import Sequencer.Proofs.RoundTrip
import Sequencer.Proofs.Targets
import Sequencer.Proofs.Text

/-!
# What can still fail after validation

Validation leaves linking few ways to fail. A program may not fit into the memory, warnings may meet
their limit, and a value may be too wide for its word: the target of a branch, or the value of the
one opcode that is allowed more bits than its format has.
-/

namespace Sequencer

open Report

/-! ## Encoding resolved commands -/

namespace Format

theorem exists_encode {format : Format} {register value : UInt16} (flags : FlagSet)
    (hregister : register.toNat < Bits.capacity format.registerWidth)
    (hvalue : value.toNat < Bits.capacity format.valueWidth) :
    ∃ word, format.encode register flags value = .ok word := by
  unfold encode
  rw [if_neg (by omega), if_neg (by omega)]
  exact ⟨_, rfl⟩

theorem encode_overflow {format : Format} {register value : UInt16} (flags : FlagSet)
    (hregister : register.toNat < Bits.capacity format.registerWidth)
    (hvalue : Bits.capacity format.valueWidth ≤ value.toNat) :
    format.encode register flags value = .error ⟨.immediate, value, format.valueWidth⟩ := by
  unfold encode
  rw [if_neg (by omega), if_pos hvalue]

end Format

namespace Opcode

/-- A branch has no register field, and ten bits for its value. -/
theorem branch_op (opcode : Opcode) : opcode.family = .branch →
    (MachineOp.ofOpcode? opcode).any (fun op ↦
      op.isBranch && op.format.registerWidth == 0 && op.format.valueWidth == 10) = true := by
  cases opcode <;> decide

theorem immediate_op (opcode : Opcode) :
    opcode.family = .singleImmediate ∨ opcode.family = .optionalImmediate →
      (MachineOp.ofOpcode? opcode).any (fun op ↦
        !op.isBranch && op.format.registerWidth == 0 &&
          (if opcode = .unused3 then op.format.valueWidth == 10
            else decide (opcode.operandBits ≤ op.format.valueWidth))) = true := by
  cases opcode <;> decide

theorem bare_op (opcode : Opcode) : opcode.family = .zeroOperand →
    (MachineOp.ofOpcode? opcode).any (fun op ↦
      !op.isBranch && op.format.registerWidth == 0) = true := by
  cases opcode <;> decide

theorem ne_unused3 (opcode : Opcode) (h : opcode.family ≠ .singleImmediate) :
    opcode ≠ .unused3 := by
  rintro rfl
  exact h rfl

end Opcode

namespace Command

/-- A command has a word, or else its value is too wide for one; the index tells which. -/
inductive Encodes (symbols : Symbols) (command : Command) : Bool → Prop where
  | word {code : Word} (encode_eq : command.encode symbols = .ok code) :
      Encodes symbols command false
  | overflow {fault : FieldOverflow}
      (encode_eq : command.encode symbols = .error (.overflow fault)) :
      Encodes symbols command true

theorem encodes_of_fieldValue {symbols : Symbols} {command : Command} {op : MachineOp}
    {value : UInt16} (hop : command.op? = some op)
    (hregister : command.registerIndex.toNat < Bits.capacity op.format.registerWidth)
    (hvalue : command.fieldValue symbols op = .ok value) :
    command.Encodes symbols (Bits.capacity op.format.valueWidth ≤ value.toNat) := by
  have hencode : command.encode symbols =
      (op.format.encode command.registerIndex command.flags value).mapError .overflow := by
    rw [encode_of_op hop, hvalue]
    rfl
  by_cases hwide : Bits.capacity op.format.valueWidth ≤ value.toNat
  · rw [Format.encode_overflow _ hregister hwide] at hencode
    rw [decide_eq_true hwide]
    exact .overflow hencode
  · obtain ⟨word, hword⟩ := Format.exists_encode command.flags hregister (Nat.not_le.1 hwide)
    rw [hword] at hencode
    rw [decide_eq_false hwide]
    exact .word hencode

theorem op?_of_family {command : Command} (h : command.opcode.family ≠ .registerLoad) :
    command.op? = MachineOp.ofOpcode? command.opcode := by
  unfold op?
  split
  · next hload _ => exact absurd (by rw [hload]; rfl) h
  · next hload _ => exact absurd (by rw [hload]; rfl) h
  · next hload _ => exact absurd (by rw [hload]; rfl) h
  · rfl

/-- A resolved load encodes. -/
theorem encodes_load {symbols : Symbols} {command : Command} {kind : RegisterClass}
    {index : Option UInt8} {value : UInt16} (hfamily : command.opcode.family = .registerLoad)
    (himplied : ∀ implied, Operand.impliedRegister? command.opcode = some implied → kind = implied)
    (hindex : Operand.IndexFits kind index)
    (hvalue : value.toNat < Bits.capacity kind.sourceBits)
    (hoperands : command.operands = [.register kind index, .constant value]) :
    command.Encodes symbols false := by
  have hconstant : command.constant?.getD 0 = value := by simp [constant?, hoperands]
  obtain ⟨op, hop, hbranch, hregister, hwidth⟩ : ∃ op, command.op? = some op ∧
      op.isBranch = false ∧
      command.registerIndex.toNat < Bits.capacity op.format.registerWidth ∧
      op.format.valueWidth = kind.sourceBits := by
    cases kind with
    | general =>
      obtain ⟨i, rfl, hi⟩ := hindex
      have hload : command.opcode = .ld := by
        cases hopcode : command.opcode <;> simp_all [Opcode.family, Operand.impliedRegister?]
      refine ⟨.ldReg, by simp [op?, hload, hoperands], rfl, ?_, rfl⟩
      have hindex : command.registerIndex = i.toUInt16 := by
        simp [registerIndex, hoperands]
      rw [hindex, UInt8.toNat_toUInt16]
      exact Nat.lt_succ_of_le hi
    | counter =>
      obtain rfl : index = none := hindex
      refine ⟨.ldCc, ?_, rfl, ?_, rfl⟩
      · cases hopcode : command.opcode <;>
          simp_all [Opcode.family, Operand.impliedRegister?, op?, MachineOp.ofOpcode?]
      · simp [registerIndex, hoperands, Bits.capacity_pos]
    | nestedCounter =>
      obtain rfl : index = none := hindex
      refine ⟨.ldNc, ?_, rfl, ?_, rfl⟩
      · cases hopcode : command.opcode <;>
          simp_all [Opcode.family, Operand.impliedRegister?, op?, MachineOp.ofOpcode?]
      · simp [registerIndex, hoperands, Bits.capacity_pos]
  have hfield : command.fieldValue symbols op = .ok value := by
    rw [fieldValue, if_neg (by simp [hbranch]), hconstant]
  have hencodes := encodes_of_fieldValue hop hregister hfield
  rwa [hwidth, decide_eq_false (Nat.not_le.2 hvalue)] at hencodes

/-- A resolved immediate encodes, unless its opcode is the one that is allowed too many bits. -/
theorem encodes_immediate {symbols : Symbols} {command : Command} {value : UInt16}
    (hfamily : command.opcode.family = .singleImmediate ∨
      command.opcode.family = .optionalImmediate)
    (hvalue : value.toNat < Bits.capacity command.opcode.operandBits)
    (hoperands : command.operands = [.constant value]) :
    command.Encodes symbols (command.opcode = .unused3 && decide (1023 < value.toNat)) := by
  obtain ⟨op, hop, hfacts⟩ := (Option.any_eq_true _ _).1 (command.opcode.immediate_op hfamily)
  simp only [Bool.and_eq_true, Bool.not_eq_true', beq_iff_eq] at hfacts
  obtain ⟨⟨hbranch, hregister⟩, hwidth⟩ := hfacts
  have hop' : command.op? = some op := by
    rw [op?_of_family (by rcases hfamily with h | h <;> rw [h] <;> decide), hop]
  have hfield : command.fieldValue symbols op = .ok value := by
    rw [fieldValue, if_neg (by simp [hbranch])]
    simp [constant?, hoperands]
  have hencodes := encodes_of_fieldValue hop'
    (by rw [hregister]; simp [registerIndex, hoperands, Bits.capacity_pos]) hfield
  by_cases hlast : command.opcode = .unused3
  · rw [if_pos hlast, beq_iff_eq] at hwidth
    have hiff : Bits.capacity 10 ≤ value.toNat ↔ 1023 < value.toNat := Iff.rfl
    rw [hwidth, decide_eq_decide.2 hiff] at hencodes
    rwa [decide_eq_true hlast, Bool.true_and]
  · rw [if_neg hlast, decide_eq_true_eq] at hwidth
    have hfits : value.toNat < Bits.capacity op.format.valueWidth :=
      hvalue.trans_le (Nat.pow_le_pow_right (by norm_num) hwidth)
    rw [decide_eq_false (Nat.not_le.2 hfits)] at hencodes
    simpa [hlast] using hencodes

theorem encodes_bare {symbols : Symbols} {command : Command}
    (hfamily : command.opcode.family = .zeroOperand) (hoperands : command.operands = []) :
    command.Encodes symbols false := by
  obtain ⟨op, hop, hfacts⟩ := (Option.any_eq_true _ _).1 (command.opcode.bare_op hfamily)
  simp only [Bool.and_eq_true, Bool.not_eq_true', beq_iff_eq] at hfacts
  have hop' : command.op? = some op := by
    rw [op?_of_family (by rw [hfamily]; decide), hop]
  have hfield : command.fieldValue symbols op = .ok 0 := by
    rw [fieldValue, if_neg (by simp [hfacts.1])]
    simp [constant?, hoperands]
  have hencodes := encodes_of_fieldValue hop'
    (by rw [hfacts.2]; simp [registerIndex, hoperands, Bits.capacity_pos]) hfield
  have hfits : ¬ Bits.capacity op.format.valueWidth ≤ (0 : UInt16).toNat :=
    Nat.not_le.2 (Bits.capacity_pos _)
  rwa [decide_eq_false hfits] at hencodes

/-- A branch to an even address encodes as long as half of the address has ten bits. -/
theorem encodes_branch {symbols : Symbols} {command : Command} {name : Text} {symbol : Symbol}
    {address : ℕ} (hfamily : command.opcode.family = .branch)
    (hoperands : command.operands = [.address name]) (hsymbol : symbols.get? name = some symbol)
    (haddress : symbol.address = some (UInt16.ofNat address)) (hlt : address ≤ maxAddress)
    (heven : 2 ∣ address) : command.Encodes symbols (2048 ≤ address) := by
  obtain ⟨op, hop, hfacts⟩ := (Option.any_eq_true _ _).1 (command.opcode.branch_op hfamily)
  simp only [Bool.and_eq_true, beq_iff_eq] at hfacts
  obtain ⟨⟨hbranch, hregister⟩, hwidth⟩ := hfacts
  have hop' : command.op? = some op := by
    rw [op?_of_family (by rw [hfamily]; decide), hop]
  have hnat : (UInt16.ofNat address).toNat = address :=
    UInt16.toNat_ofNat_of_lt' (Nat.lt_succ_of_le hlt)
  have hmod : UInt16.ofNat address % 2 = 0 := by
    apply UInt16.toNat_inj.1
    rw [UInt16.toNat_mod, hnat]
    exact Nat.mod_eq_zero_of_dvd heven
  have htarget : command.target? = some name := by simp [target?, hoperands]
  have hfield : command.fieldValue symbols op = .ok (UInt16.ofNat address >>> 1) := by
    rw [fieldValue, if_pos hbranch]
    simp only [branchValue, htarget, hsymbol, Option.bind_some, haddress, if_pos hmod]
  have hhalf : (UInt16.ofNat address >>> 1).toNat = address / 2 := by
    rw [UInt16.toNat_shiftRight, hnat]
    rfl
  have hencodes := encodes_of_fieldValue hop'
    (by rw [hregister]; simp [registerIndex, hoperands, Bits.capacity_pos]) hfield
  have hiff : Bits.capacity 10 ≤ address / 2 ↔ 2048 ≤ address := by
    rw [Bits.capacity_eq]
    omega
  rwa [hwidth, hhalf, decide_eq_decide.2 hiff] at hencodes

end Command

/-! ## Which commands have no word -/

namespace Draft

/-- The address that the layout gives to the command which a branch names. -/
def targetAddress? (draft : Draft) (command : Command) : Option ℕ := do
  let name ← command.target?
  let symbol ← draft.symbols.get? name
  draft.layout[symbol.commandIndex]?

/-- A branch to an address whose half has more than ten bits, or the last unused opcode with a value
of more than ten bits. -/
def overflows (draft : Draft) (command : Command) : Bool :=
  command.opcode.family = .branch && (draft.targetAddress? command).any (2048 ≤ ·) ||
    command.opcode = .unused3 && command.constant?.any (1023 < ·.toNat)

/-- A validated draft that fits into memory. -/
structure IsLinkable (draft : Draft) : Prop where
  resolved : draft.IsResolved
  evenTargets : draft.HasEvenTargets
  fits : draft.FitsMemory

variable {draft : Draft}

/-- The commands of a linkable draft that have no word are those that overflow. -/
theorem encodes_of_mem (hdraft : draft.IsLinkable) {command : Command}
    (hmem : command ∈ draft.commands) :
    command.Encodes draft.linkedSymbols (draft.overflows command) := by
  have h := hdraft.resolved command hmem
  generalize hoperands : command.operands = operands at h
  cases h with
  | load family_eq implied index_fits value_lt =>
    have hopcode := Opcode.ne_unused3 command.opcode (by rw [family_eq]; decide)
    simpa [overflows, family_eq, hopcode] using
      Command.encodes_load family_eq implied index_fits value_lt hoperands
  | branch family_eq =>
    obtain ⟨name, symbol, target, address, hname, hsymbol, htarget, haddress, hdvd⟩ :=
      hdraft.evenTargets command hmem family_eq
    obtain ⟨address', haddress', hlinked⟩ := get?_linkedSymbols hsymbol htarget
    obtain rfl : address = address' := Option.some.inj (haddress.symm.trans haddress')
    have hopcode := Opcode.ne_unused3 command.opcode (by rw [family_eq]; decide)
    have hto : draft.targetAddress? command = some address := by
      simp [targetAddress?, Command.target?, hname, hsymbol, haddress]
    simpa [overflows, family_eq, hopcode, hto] using
      Command.encodes_branch family_eq hname hlinked rfl
        (hdraft.fits address (List.mem_of_getElem? haddress)) hdvd
  | @immediate value family_eq value_lt =>
    have hfamily : command.opcode.family ≠ .branch := by
      rcases family_eq with h | h <;> rw [h] <;> decide
    have hconstant : command.constant? = some value := by simp [Command.constant?, hoperands]
    simpa [overflows, hfamily, hconstant] using
      Command.encodes_immediate family_eq value_lt hoperands
  | bare family_eq =>
    have hopcode := Opcode.ne_unused3 command.opcode (by rw [family_eq]; decide)
    simpa [overflows, family_eq, hopcode] using Command.encodes_bare family_eq hoperands

theorem countP_isUnencodable (hdraft : draft.IsLinkable) :
    draft.placed.commands.countP (Command.isUnencodable draft.linkedSymbols) =
      draft.commands.countP draft.overflows := by
  have hplaced := map_placed (fun (command : Command) (address : ℕ) ↦
    (rfl : (command.placedAt address).isUnencodable draft.linkedSymbols =
      command.isUnencodable draft.linkedSymbols)) draft
  calc draft.placed.commands.countP (Command.isUnencodable draft.linkedSymbols)
      = (draft.placed.commands.map (Command.isUnencodable draft.linkedSymbols)).countP id := by
        rw [List.countP_map, Function.id_comp]
    _ = draft.commands.countP (Command.isUnencodable draft.linkedSymbols) := by
        rw [hplaced, List.countP_map, Function.id_comp]
    _ = draft.commands.countP draft.overflows := by
        refine List.countP_congr fun command hmem ↦ ?_
        have hencodes := encodes_of_mem hdraft hmem
        generalize draft.overflows command = wide at hencodes
        cases hencodes with
        | word encode_eq => simp [Command.isUnencodable, encode_eq]
        | overflow encode_eq => simp [Command.isUnencodable, encode_eq]

/-- The only fault that is left to the commands of a linkable draft is an overflow. -/
theorem exists_overflow_of_encode (hdraft : draft.IsLinkable) {command : Command}
    (hmem : command ∈ draft.placed.commands) {fault : EncodingFault}
    (hfault : command.encode draft.linkedSymbols = .error fault) :
    ∃ overflow, fault = .overflow overflow := by
  obtain ⟨place, hplace⟩ := List.mem_iff_getElem?.1 hmem
  obtain ⟨written, address, hwritten, -, rfl⟩ := List.getElem?_zipWith_eq_some.1 hplace
  replace hfault : written.encode draft.linkedSymbols = .error fault := hfault
  have hencodes := encodes_of_mem hdraft (List.mem_of_getElem? hwritten)
  generalize draft.overflows written = wide at hencodes
  cases hencodes with
  | word encode_eq => rw [encode_eq] at hfault; cases hfault
  | overflow encode_eq => exact ⟨_, Except.error.inj (hfault.symm.trans encode_eq)⟩

end Draft

/-! ## What linking records -/

/-- An error that a branch goes to an odd address. -/
def Diagnostic.IsOddTarget (d : Diagnostic) : Prop :=
  ∃ (opcode : Opcode) (name : Text) (address : UInt16), d.severity = .error ∧ d.stage = .linker ∧
    d.message = s!"{opcode.mnemonic}: {(EncodingFault.oddTarget name address).message}"

theorem Opcode.colon_notMem_mnemonic (opcode : Opcode) : ':' ∉ opcode.mnemonic.toList := by
  cases opcode <;> decide

/-- A message is found again behind the mnemonic it was written after. -/
theorem Opcode.message_inj {opcode other : Opcode} {message text : String}
    (h : s!"{opcode.mnemonic}: {message}" = s!"{other.mnemonic}: {text}") :
    message = text := by
  have hsplit (opcode : Opcode) (message : String) :
      Text.splitFirst ':' s!"{opcode.mnemonic}: {message}".toList =
        some (opcode.mnemonic.toList, ' ' :: message.toList) := by
    rw [← Text.splitFirst_append opcode.colon_notMem_mnemonic]
    simp [toString]
  have hsame := (hsplit opcode message).symm.trans (h ▸ hsplit other text)
  simp only [Option.some.injEq, Prod.mk.injEq, List.cons.injEq, true_and] at hsame
  exact String.toList_inj.1 hsame.2

theorem FieldOverflow.message_ne_oddTarget (overflow : FieldOverflow) (name : Text)
    (address : UInt16) : overflow.message ≠ (EncodingFault.oddTarget name address).message := by
  -- the first letters differ already
  have hodd : (EncodingFault.oddTarget name address).message.toList.head? = some 'b' := by
    change s!"branch target {String.ofList name} at odd address {address.toNat}".toList.head? = _
    simp only [String.toList_append]
    rfl
  have hover : overflow.message.toList.head? = overflow.field.name.toList.head? := by
    simp only [message, String.toList_append]
    cases overflow.field <;> rfl
  intro h
  rw [← h, hover] at hodd
  revert hodd
  cases overflow.field <;> decide

namespace Draft

/-- What linking may record about a linkable draft: warnings, and values too wide for their word. -/
def IsOverflowDiagnostic (d : Diagnostic) : Prop :=
  IsLinkerWarning d ∨ ∃ (opcode : Opcode) (overflow : FieldOverflow),
    d.message = s!"{opcode.mnemonic}: {overflow.message}"

theorem IsOverflowDiagnostic.not_isOddTarget {d : Diagnostic} (h : IsOverflowDiagnostic d) :
    ¬ d.IsOddTarget := by
  rintro ⟨opcode', name, address, hseverity, -, hmessage⟩
  rcases h with ⟨hwarning, -⟩ | ⟨opcode, overflow, hoverflow⟩
  · rw [hwarning] at hseverity
    cases hseverity
  · rw [hoverflow] at hmessage
    exact overflow.message_ne_oddTarget name address (Opcode.message_inj hmessage)

theorem Kept.not_meetsLimit {kind : Diagnostic → Prop} {n : ℕ} {before after : Report}
    (h : Kept kind n before after) : ¬ MeetsLimit before after := by
  rintro ⟨hlt, hmet⟩
  rcases h.limit_unmet with hsame | hunmet
  · exact hlt.ne' hsame
  · rw [hunmet] at hmet
    cases hmet

section

variable {draft : Draft}

theorem IsLinkable.isOverflowDiagnostic (hdraft : draft.IsLinkable) {d : Diagnostic}
    (h : IsEncodingDiagnostic draft.linkedSymbols draft.placed.commands d) :
    IsOverflowDiagnostic d := by
  rcases h with hwarning | ⟨command, hmem, fault, hfault, hkind⟩
  · exact .inl hwarning
  · obtain ⟨overflow, rfl⟩ := exists_overflow_of_encode hdraft hmem hfault
    rcases hkind with ⟨hinternal, -⟩ | ⟨-, rfl⟩
    · cases hinternal
    · exact .inr ⟨command.opcode, overflow, rfl⟩

/-- How linking ends for a linkable draft without errors. -/
theorem link_of_isLinkable (hdraft : draft.IsLinkable)
    (herrors : draft.report.tally.errors = 0) :
    Continues IsOverflowDiagnostic draft.report draft.link.1.report ∧
      (MeetsLimit draft.report draft.link.1.report ∧
          draft.link.2 = .error (.warningLimit draft.link.1.report.tally.warnings) ∨
        ¬ MeetsLimit draft.report draft.link.1.report ∧
          (draft.link.1.commands.map fun command ↦ command.address.toNat) = draft.layout ∧
          draft.link.2 = if draft.commands.countP draft.overflows = 0 then .ok ()
            else .error (.aborted .linker (draft.commands.countP draft.overflows))) := by
  have hkind (d : Diagnostic) := @IsLinkable.isOverflowDiagnostic _ hdraft d
  obtain ⟨hover, -⟩ | ⟨-, ⟨halted, failure, hlink, hcontinues, hwhy⟩ | ⟨report, hlink, hkept⟩⟩ :=
    draft.link_cases
  · exact absurd hdraft.fits hover
  · rw [hlink]
    refine ⟨hcontinues.mono hkind, .inl ?_⟩
    -- a command that was never resolved is the other reason to halt, and there is none
    obtain hhalt | ⟨command, hmem, fault, hfault, hinternal⟩ := hwhy
    · exact ⟨hhalt.meetsLimit hcontinues, congrArg Except.error hhalt.failure_eq⟩
    · obtain ⟨overflow, rfl⟩ := exists_overflow_of_encode hdraft hmem hfault
      cases hinternal
  · rw [hlink]
    refine ⟨hkept.continues.mono hkind,
      .inr ⟨hkept.not_meetsLimit, map_address_linked hdraft.fits report, ?_⟩⟩
    have hcount : report.tally.errors = draft.commands.countP draft.overflows := by
      rw [hkept.errors_eq, herrors, Nat.zero_add, countP_isUnencodable hdraft]
    rw [← hcount]
    rfl

theorem failure_of_isLinkable (hdraft : draft.IsLinkable)
    (herrors : draft.report.tally.errors = 0) {failure : Failure}
    (h : draft.link.2 = .error failure) :
    (∃ warnings, failure = .warningLimit warnings) ∨
      ∃ errors, failure = .aborted .linker errors := by
  obtain ⟨-, ⟨-, hlimit⟩ | ⟨-, -, hcount⟩⟩ := link_of_isLinkable hdraft herrors
  · exact .inl ⟨_, Except.error.inj (h.symm.trans hlimit)⟩
  · rw [h] at hcount
    split at hcount
    · cases hcount
    · exact .inr ⟨_, Except.error.inj hcount⟩

/-- Linking that leaves the memory records a fatal diagnostic and nothing else. -/
theorem link_of_not_fitsMemory (hfit : ¬ draft.FitsMemory) :
    ∃ line message, draft.link.2 = .error (.fatal .linker line message) ∧
      draft.link.1.report.diagnostics = draft.report.diagnostics ++
        [{ severity := .fatal, stage := .linker, line, message }] := by
  obtain ⟨-, commands, line, message, hlink⟩ | ⟨hfits, -⟩ := draft.link_cases
  · exact ⟨line, message, by rw [hlink], by rw [hlink]; rfl⟩
  · exact absurd hfits hfit

end

end Draft

theorem Settings.dvd_branchAlignment {settings : Settings}
    (heven : settings.branchAlignment % 2 = 0) : 2 ∣ settings.branchAlignment.toNat := by
  apply Nat.dvd_of_mod_eq_zero
  have hmod := congrArg UInt16.toNat heven
  rwa [UInt16.toNat_mod] at hmod

/-- What reading and validation leave to linking. -/
theorem resolved_of_validate {settings : Settings} {report : Report} {source : List SourceLine}
    {reader : Reader} {commands : List Command} {validated : Draft}
    (hzero : settings.branchAlignment ≠ 0) (heven : settings.branchAlignment % 2 = 0)
    (hread : ({ report } : Reader).read source = (reader, .ok commands))
    (hvalidate : (reader.draft commands).validate reader.constants settings.branchAlignment =
      (validated, .ok ())) :
    validated.IsResolved ∧ validated.HasEvenTargets ∧ validated.report.tally.errors = 0 := by
  obtain ⟨rfl, herrors, hfaults⟩ := Draft.of_validate_eq_ok hvalidate
  have hresolved := Draft.isResolved_validated settings.branchAlignment hfaults
  -- commands are read with alignment one, so a target has the alignment of the settings
  have htargets := Draft.hasEvenTargets_validated hresolved (Reader.alignment_of_read hread) hzero
    (Settings.dvd_branchAlignment heven)
  exact ⟨hresolved, htargets, herrors⟩

/-- What can still fail once reading and validation succeeded. Linking meets neither a command that
was never resolved nor an odd target. It fails at once if the layout leaves the memory. Otherwise it
ends at the warning limit or counts the commands whose value is too wide for their word. -/
theorem link_outcome_of_validate {settings : Settings} {report : Report} {source : List SourceLine}
    {reader : Reader} {commands : List Command} {validated linked : Draft}
    {outcome : Except Failure Unit} (hzero : settings.branchAlignment ≠ 0)
    (heven : settings.branchAlignment % 2 = 0)
    (hread : ({ report } : Reader).read source = (reader, .ok commands))
    (hvalidate : (reader.draft commands).validate reader.constants settings.branchAlignment =
      (validated, .ok ()))
    (hlink : validated.link = (linked, outcome)) :
    (∀ message, outcome ≠ .error (.internal message)) ∧
    (∃ added, linked.report.diagnostics = validated.report.diagnostics ++ added ∧
      ∀ d ∈ added, ¬ d.IsOddTarget) ∧
    ((∃ stage line message, outcome = .error (.fatal stage line message)) ↔
      ∃ address ∈ validated.layout, 65535 < address) ∧
    ((∀ address ∈ validated.layout, address ≤ 65535) →
      (MeetsLimit validated.report linked.report →
        outcome = .error (.warningLimit linked.report.tally.warnings)) ∧
      (¬ MeetsLimit validated.report linked.report →
        (linked.commands.map fun command ↦ command.address.toNat) = validated.layout ∧
        outcome = if validated.commands.countP validated.overflows = 0 then .ok ()
          else .error (.aborted .linker (validated.commands.countP validated.overflows)))) := by
  obtain ⟨hresolved, htargets, herrors⟩ := resolved_of_validate hzero heven hread hvalidate
  obtain ⟨rfl, rfl⟩ : validated.link.1 = linked ∧ validated.link.2 = outcome :=
    Prod.ext_iff.1 hlink
  by_cases hfit : validated.FitsMemory
  · have hnone : ¬ ∃ address ∈ validated.layout, 65535 < address := by
      rintro ⟨address, hmem, hlt⟩
      exact absurd (hfit address hmem) (Nat.not_le.2 hlt)
    obtain ⟨hcontinues, hend⟩ := Draft.link_of_isLinkable ⟨hresolved, htargets, hfit⟩ herrors
    obtain ⟨added, hadded, hkind⟩ := hcontinues.appended
    have hfailure (failure : Failure) :=
      @Draft.failure_of_isLinkable _ ⟨hresolved, htargets, hfit⟩ herrors failure
    refine ⟨fun message hinternal ↦ ?_, ⟨added, hadded, fun d hd ↦ (hkind d hd).not_isOddTarget⟩,
      ⟨fun ⟨stage, line, message, hfatal⟩ ↦ ?_, fun h ↦ absurd h hnone⟩, fun _ ↦ ⟨?_, ?_⟩⟩
    · obtain ⟨_, hlimit⟩ | ⟨_, haborted⟩ := hfailure _ hinternal
      · cases hlimit
      · cases haborted
    · obtain ⟨_, hlimit⟩ | ⟨_, haborted⟩ := hfailure _ hfatal
      · cases hlimit
      · cases haborted
    · intro hmet
      obtain ⟨-, hlimit⟩ | ⟨hunmet, -⟩ := hend
      · exact hlimit
      · exact absurd hmet hunmet
    · intro hunmet
      obtain ⟨hmet, -⟩ | ⟨-, hcount⟩ := hend
      · exact absurd hmet hunmet
      · exact hcount
  · obtain ⟨line, message, hfatal, hdiagnostics⟩ := Draft.link_of_not_fitsMemory hfit
    have hsome : ∃ address ∈ validated.layout, 65535 < address := by
      simpa [Draft.FitsMemory, maxAddress] using hfit
    rw [hfatal]
    refine ⟨fun _ hinternal ↦ (by cases hinternal), ⟨_, hdiagnostics, ?_⟩,
      ⟨fun _ ↦ hsome, fun _ ↦ ⟨_, _, _, rfl⟩⟩, fun h ↦ absurd h hfit⟩
    rintro d hd ⟨_, _, _, hseverity, -⟩
    obtain rfl := List.mem_singleton.1 hd
    cases hseverity

/-- A branch to address 2048 and an unused opcode with the value 2000 are the two commands that
overflow here. -/
theorem link_outcome_of_validate_far :
    ∃ (reader : Reader) (commands : List Command) (validated : Draft),
      ({ report := .start none } : Reader).read (SourceLine.ofText
        "JUMP @far\nA NOOP 4\n@far: unused3 2000".toList) = (reader, .ok commands) ∧
      (reader.draft commands).validate reader.constants 2048 = (validated, .ok ()) ∧
      validated.layout = [0, 1, 2048] ∧
      validated.link.2 = .error (.aborted .linker 2) := by
  generalize hsource : SourceLine.ofText
    "JUMP @far\nA NOOP 4\n@far: unused3 2000".toList = source
  have hparsed : (({ report := .start none } : Reader).read source).2.isOk = true := by
    rw [← hsource]
    decide +kernel
  rcases hread : ({ report := .start none } : Reader).read source with ⟨reader, failure | commands⟩
  · rw [hread] at hparsed
    cases hparsed
  rcases hvalidate : (reader.draft commands).validate reader.constants 2048 with ⟨validated, passed⟩
  have hfacts : passed = .ok () ∧ validated.layout = [0, 1, 2048] ∧
      validated.commands.countP validated.overflows = 2 ∧
      validated.link.1.report.tally.warnings = 0 := by
    have hreader : reader = (({ report := .start none } : Reader).read source).1 := by rw [hread]
    have hcommands : commands =
        (({ report := .start none } : Reader).read source).2.toOption.getD [] := by
      rw [hread]
      rfl
    obtain ⟨rfl, rfl⟩ := Prod.ext_iff.1 hvalidate
    rw [hreader, hcommands, ← hsource]
    decide +kernel
  obtain ⟨rfl, hlayout, hcount, hwarnings⟩ := hfacts
  have hfit : ∀ address ∈ validated.layout, address ≤ 65535 := by
    rw [hlayout]
    decide
  have hunmet : ¬ MeetsLimit validated.report validated.link.1.report := by
    rintro ⟨hlt, -⟩
    rw [hwarnings] at hlt
    exact absurd hlt (Nat.not_lt_zero _)
  have hlink : validated.link = (validated.link.1, validated.link.2) := rfl
  obtain ⟨-, -, -, hend⟩ := @link_outcome_of_validate { branchAlignment := 2048 } _ _ _ _ _ _ _
    (by decide) (by decide) hread hvalidate hlink
  obtain ⟨-, houtcome⟩ := (hend hfit).2 hunmet
  rw [hcount] at houtcome
  exact ⟨reader, commands, validated, rfl, hvalidate, hlayout, houtcome⟩

end Sequencer
