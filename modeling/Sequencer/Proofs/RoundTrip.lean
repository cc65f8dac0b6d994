import Mathlib
import Sequencer.Verification
import Sequencer.Proofs.Assembly
import Sequencer.Proofs.Linking
import Sequencer.Proofs.WordCodec

/-!
# Words say what their commands say

Whatever commands a draft holds, a command that linking accepts survives encoding: its word decodes
to its operation, to the flags its format has letters for, to its register, and to its value or the
address it branches to. Verification therefore finds nothing to report on a linked program.
-/

namespace Sequencer

namespace Command

/-- A decoded word agrees with a command. A branch goes to the address of the symbol it names. -/
structure Agrees (symbols : Symbols) (command : Command) (decoded : Decoded) : Prop where
  op_eq : command.op? = some decoded.op
  flags_eq : decoded.flagSet = command.flags.inter (.ofLetters decoded.op.format.flags)
  register_eq : decoded.register = command.registerIndex
  target_eq : decoded.op.isBranch = true → ∃ name symbol address, command.target? = some name ∧
    symbols.get? name = some symbol ∧ symbol.address = some address ∧
    decoded.target? = some address
  value_eq : decoded.op.isBranch = false → decoded.value = command.constant?.getD 0

theorem branchValue_eq_ok {symbols : Symbols} {command : Command} {value : UInt16}
    (h : command.branchValue symbols = .ok value) :
    ∃ name symbol address, command.target? = some name ∧ symbols.get? name = some symbol ∧
      symbol.address = some address ∧ address % 2 = 0 ∧ value = address >>> 1 := by
  unfold branchValue at h
  cases htarget : command.target? with
  | none => simp [htarget] at h
  | some name =>
    simp only [htarget] at h
    cases haddress : (symbols.get? name).bind Symbol.address with
    | none => simp [haddress] at h
    | some address =>
      obtain ⟨symbol, hsymbol, haddress'⟩ := Option.bind_eq_some_iff.1 haddress
      simp only [haddress] at h
      by_cases heven : address % 2 = 0
      · rw [if_pos heven] at h
        exact ⟨name, symbol, address, rfl, hsymbol, haddress', heven, (Except.ok.inj h).symm⟩
      · rw [if_neg heven] at h
        cases h

/-- The operation and the fields behind the word of a command. -/
theorem encode_eq_ok {symbols : Symbols} {command : Command} {code : Word}
    (h : command.encode symbols = .ok code) :
    ∃ op value, command.op? = some op ∧ command.fieldValue symbols op = .ok value ∧
      op.format.encode command.registerIndex command.flags value = .ok code := by
  cases hop : command.op? with
  | none => simp [encode, hop] at h
  | some op =>
    rw [encode_of_op hop] at h
    cases hvalue : command.fieldValue symbols op with
    | error fault => simp [hvalue, Except.bind] at h
    | ok value =>
      simp only [hvalue, Except.bind] at h
      cases hencode : op.format.encode command.registerIndex command.flags value with
      | error fault => simp [hencode, Except.mapError] at h
      | ok word =>
        simp only [hencode, Except.mapError, Except.ok.injEq] at h
        exact ⟨op, value, rfl, hvalue, by rw [hencode, h]⟩

/-- The operations of branches are those whose opcode is one. -/
theorem isBranch_iff {command : Command} {op : MachineOp} (hop : command.op? = some op) :
    op.isBranch = true ↔ command.opcode.family = .branch := by
  unfold op? at hop
  split at hop
  · next hload _ => cases hop; rw [hload]; decide
  · next hload _ => cases hop; rw [hload]; decide
  · next hload _ => cases hop; rw [hload]; decide
  · cases hopcode : command.opcode <;> rw [hopcode] at hop <;> cases hop <;> decide

theorem code_lt_of_encode {symbols : Symbols} {command : Command} {code : Word}
    (h : command.encode symbols = .ok code) : code.toNat < Bits.capacity wordBits := by
  obtain ⟨op, value, -, -, hencode⟩ := encode_eq_ok h
  exact ((Format.encode_eq_ok_iff (Format.isWordSized_format op) _ _ _ _).1 hencode).2.2.1

/-- Doubling half of an even address gives the address back. -/
theorem shiftLeft_shiftRight_of_even {address : UInt16} (heven : address % 2 = 0) :
    (address >>> 1) <<< 1 = address := by
  have hmod : address.toNat % 2 = 0 := by
    simpa using congrArg UInt16.toNat heven
  have hlt := address.toNat_lt
  apply UInt16.toNat_inj.1
  simp [Nat.shiftRight_eq_div_pow, Nat.shiftLeft_eq]
  omega

/-- The word of a command decodes to what the command says. -/
theorem exists_agrees_of_encode {symbols : Symbols} {command : Command} {code : Word}
    (h : command.encode symbols = .ok code) :
    ∃ decoded, decode code = some decoded ∧ command.Agrees symbols decoded := by
  obtain ⟨op, value, hop, hvalue, hencode⟩ := encode_eq_ok h
  obtain ⟨decoded, hdecode, rfl, hregister, rfl, hflags⟩ := decode_encode hencode
  refine ⟨decoded, hdecode, hop, hflags, hregister, fun hbranch ↦ ?_, fun hplain ↦ ?_⟩
  · rw [fieldValue, if_pos hbranch] at hvalue
    obtain ⟨name, symbol, address, htarget, hsymbol, haddress, heven, hhalf⟩ :=
      branchValue_eq_ok hvalue
    refine ⟨name, symbol, address, htarget, hsymbol, haddress, ?_⟩
    rw [Decoded.target?, if_pos hbranch, hhalf, shiftLeft_shiftRight_of_even heven]
  · rw [fieldValue, if_neg (by simp [hplain])] at hvalue
    exact (Except.ok.inj hvalue).symm

theorem compareField_self (command : Command) (field : ComparedField) (value : UInt16) :
    command.compareField field value value = [] := if_pos rfl

theorem compareWith_of_agrees {symbols : Symbols} {command : Command} {decoded : Decoded}
    (h : command.Agrees symbols decoded) : command.compareWith symbols decoded = [] := by
  simp only [compareWith, h.op_eq, ne_eq, not_true_eq_false, if_false, h.flags_eq, h.register_eq,
    compareField_self, List.nil_append]
  by_cases hbranch : decoded.op.isBranch
  · obtain ⟨name, symbol, address, htarget, hsymbol, haddress, hdecoded⟩ := h.target_eq hbranch
    have hexpected : command.expectedTarget symbols = address := by
      simp [expectedTarget, htarget, hsymbol, haddress]
    simp only [hdecoded, hexpected, compareField_self]
  · have htarget : decoded.target? = none := if_neg hbranch
    simp only [htarget, h.value_eq (by simpa using hbranch), compareField_self]

end Command

theorem filterMap_of_map_decode {words : List Word} {decoded : List Decoded}
    (h : words.map decode = decoded.map some) : words.filterMap decode = decoded := by
  calc
    words.filterMap decode = (words.map decode).filterMap id := by simp [List.filterMap_map]
    _ = (decoded.map some).filterMap id := by rw [h]
    _ = decoded := by simp [List.filterMap_map]

theorem disassemble_of_map_decode {words : List Word} {decoded : List Decoded}
    (h : words.map decode = decoded.map some) (report : Report) :
    disassemble words report = (report, .ok decoded) := by
  have hnone : firstUndecodable? words = none := by
    rw [firstUndecodable?, List.find?_eq_none]
    rintro ⟨word, index⟩ hmem
    have hword : decode word ∈ decoded.map some := by
      rw [← h]
      exact List.mem_map_of_mem (List.fst_mem_of_mem_zipIdx hmem)
    obtain ⟨d, -, hd⟩ := List.mem_map.1 hword
    simp [← hd]
  unfold disassemble
  rw [hnone, filterMap_of_map_decode h]

namespace Program

/-- The words of a program decode, in order, to what its commands say, and verification agrees. -/
structure RoundTrips (program : Program) (report : Report) : Prop where
  disassembles : ∃ decoded, disassemble program.codes report = (report, .ok decoded) ∧
    List.Forall₂ (Command.Agrees program.symbols) program.commands decoded
  verifies : program.verify report = (report, .ok [])

theorem verify_of_agrees {program : Program} {report : Report} {decoded : List Decoded}
    (hdisassemble : disassemble program.codes report = (report, .ok decoded))
    (hagrees : List.Forall₂ (Command.Agrees program.symbols) program.commands decoded) :
    program.verify report = (report, .ok []) := by
  have hnone : program.mismatches decoded = [] := by
    rw [mismatches, List.flatMap_eq_nil_iff]
    intro pair hmem
    exact Command.compareWith_of_agrees (List.forall₂_zip hagrees hmem)
  unfold verify
  rw [hdisassemble]
  simp only [hnone, List.foldl_nil]

theorem exists_decoded {symbols : Symbols} {commands : List Command}
    (h : ∀ command ∈ commands, command.encode symbols = .ok command.code) :
    ∃ decoded, (commands.map Command.code).map decode = decoded.map some ∧
      List.Forall₂ (Command.Agrees symbols) commands decoded := by
  induction commands with
  | nil => exact ⟨[], rfl, .nil⟩
  | cons command rest ih =>
    rw [List.forall_mem_cons] at h
    obtain ⟨decoded, hdecode, hagrees⟩ := Command.exists_agrees_of_encode h.1
    obtain ⟨more, hmore, hrest⟩ := ih h.2
    refine ⟨decoded :: more, ?_, .cons hagrees hrest⟩
    rw [List.map_cons, List.map_cons, List.map_cons, hdecode, hmore]

/-- Commands that encode to their own words make a program that can be read back. -/
theorem roundTrips_of_encode {program : Program}
    (h : ∀ command ∈ program.commands, command.encode program.symbols = .ok command.code)
    (report : Report) : program.RoundTrips report := by
  obtain ⟨decoded, hmap, hagrees⟩ := exists_decoded h
  have hdisassemble := disassemble_of_map_decode hmap report
  exact ⟨⟨decoded, hdisassemble, hagrees⟩, verify_of_agrees hdisassemble hagrees⟩

end Program

/-- Linking a draft changes addresses and words only, and every word it gives can be read back. In
particular this holds of every program that assembly returns. -/
theorem roundTrips_of_link :
    (∀ (draft linked : Draft) (constants : Constants) (report : Report),
      draft.link = (linked, .ok ()) →
        linked.commands.map Command.unlinked = draft.commands.map Command.unlinked ∧
          (linked.program constants).RoundTrips report) ∧
      ∀ (settings : Settings) (source : List SourceLine) (program : Program) (report : Report),
        (assemble settings source).2 = .ok program → program.RoundTrips report := by
  constructor
  · intro draft linked constants report hlink
    exact ⟨Draft.map_unlinked_of_link hlink,
      Program.roundTrips_of_encode (Draft.encode_of_link hlink) report⟩
  · intro settings source program report hassemble
    rw [(assemble_eq_assembleInto hassemble).2] at hassemble
    obtain ⟨-, -, validated, -, -, hlink, -⟩ := exists_passes_of_assembleInto hassemble
    exact Program.roundTrips_of_encode (Draft.encode_of_link hlink) report

/-- A hand-made draft links and can be read back: it has flags without an effect, a branch with a
register, and a symbol that kept an address from before though it names no command. -/
theorem roundTrips_of_link_stale :
    let draft : Draft :=
      { commands :=
          [{ flags := { acquire := true, control := true }, opcode := .ld, rawOperands := [],
             operands := [.register .general (some 5), .constant 200], index := 0, line := 1 },
           { flags := .empty, opcode := .jump, rawOperands := [],
             operands := [.address "@end".toList], index := 1, line := 2 },
           { flags := .empty, opcode := .loop, rawOperands := [],
             operands := [.register .counter (some 0), .address "@stale".toList], index := 2,
             line := 3, alignment := 4 }]
        symbols :=
          { entries := [("@end".toList, { commandIndex := 2, line := 3 }),
              ("@stale".toList, { commandIndex := 7, line := 9, address := some 2046 })]
            ordered := by decide }
        report := {} }
    draft.link.2 = .ok () ∧ (draft.link.1.program .initial).RoundTrips {} := by
  intro draft
  have hlink : draft.link.2 = .ok () := by rfl
  exact ⟨hlink, (roundTrips_of_link.1 draft draft.link.1 .initial {} (Prod.ext rfl hlink)).2⟩

end Sequencer
