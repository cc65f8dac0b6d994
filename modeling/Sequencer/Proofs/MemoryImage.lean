import Mathlib
import Sequencer.Proofs.Assembly
import Sequencer.Proofs.ImageCodec
import Sequencer.Proofs.RoundTrip
import Sequencer.Proofs.Targets

/-!
# Images are the program memory

Written with a fill word, an image has a word for every address up to the last command: the words of
the commands at their addresses, and the fill word wherever the layout skipped. Either format is
read back to just these words, so a branch still goes to the command that its symbol names.
-/

namespace Sequencer

namespace Program

/-! ## Words with their addresses -/

theorem placedFrom_none (next : ℕ) (words : List PlacedWord) :
    placedFrom none next words = words := by
  induction words generalizing next with
  | nil => rfl
  | cons word rest ih => rw [placedFrom, PlacedWord.gap, List.nil_append, ih]

/-- The first address after some words that start at `next`. -/
def endFrom (next : ℕ) (words : List PlacedWord) : ℕ :=
  match words.getLast? with
  | some word => word.address + 1
  | none => next

/-- Words at ascending addresses of the program memory, none of them before `next`. -/
def Ascends (next : ℕ) (words : List PlacedWord) : Prop :=
  (words.map PlacedWord.address).Pairwise (· < ·) ∧
    ∀ word ∈ words, next ≤ word.address ∧ word.address ≤ maxAddress

theorem Ascends.tail {next : ℕ} {word : PlacedWord} {rest : List PlacedWord}
    (h : Ascends next (word :: rest)) : Ascends (word.address + 1) rest := by
  obtain ⟨hpairwise, hbounds⟩ := h
  rw [List.map_cons, List.pairwise_cons] at hpairwise
  refine ⟨hpairwise.2, fun other hmem ↦ ⟨?_, (hbounds other (List.mem_cons_of_mem _ hmem)).2⟩⟩
  exact hpairwise.1 _ (List.mem_map_of_mem hmem)

/-- Where more words follow, the last address has not been reached. -/
theorem placedFrom_min {fill : Option Word} {address : ℕ} {rest : List PlacedWord}
    (h : Ascends (address + 1) rest) :
    placedFrom fill (min (address + 1) maxAddress) rest = placedFrom fill (address + 1) rest := by
  cases rest with
  | nil => rfl
  | cons word more =>
    have hbounds := h.2 word List.mem_cons_self
    rw [Nat.min_eq_left (by omega)]

theorem endFrom_cons (next : ℕ) (word : PlacedWord) (rest : List PlacedWord) :
    endFrom next (word :: rest) = endFrom (word.address + 1) rest := by
  unfold endFrom
  rw [List.getLast?_cons]
  cases rest.getLast? <;> rfl

theorem le_endFrom {next : ℕ} {words : List PlacedWord} (h : Ascends next words) :
    next ≤ endFrom next words := by
  unfold endFrom
  split
  · next word hlast => exact (h.2 word (List.mem_of_getLast? hlast)).1.trans (Nat.le_succ _)
  · exact le_rfl

/-- With a fill word, every address is written once and in order. -/
theorem map_address_placedFrom (fill : Word) {next : ℕ} {words : List PlacedWord}
    (h : Ascends next words) :
    (placedFrom (some fill) next words).map PlacedWord.address =
      List.range' next (endFrom next words - next) := by
  induction words generalizing next with
  | nil => simp [placedFrom, endFrom]
  | cons word rest ih =>
    have hbounds := h.2 word List.mem_cons_self
    have hend := le_endFrom h.tail
    have hgap : (PlacedWord.gap (some fill) next word.address).map PlacedWord.address =
        List.range' next (word.address - next) := by
      simp [PlacedWord.gap, Function.comp_def]
    rw [placedFrom, placedFrom_min h.tail, List.map_append, List.map_cons, hgap, ih h.tail,
      endFrom_cons]
    calc
      List.range' next (word.address - next) ++ word.address ::
          List.range' (word.address + 1) (endFrom (word.address + 1) rest - (word.address + 1)) =
        List.range' next (word.address - next) ++ List.range' (next + (word.address - next))
          (endFrom (word.address + 1) rest - word.address) := by
        rw [Nat.add_sub_cancel' hbounds.1, ← List.range'_succ]
        congr 2
        omega
      _ = List.range' next (endFrom (word.address + 1) rest - next) := by
        rw [List.range'_append_1]
        congr 1
        omega

theorem mem_placedFrom_of_mem (fill : Option Word) (next : ℕ) {words : List PlacedWord}
    {word : PlacedWord} (h : word ∈ words) : word ∈ placedFrom fill next words := by
  induction words generalizing next with
  | nil => cases h
  | cons other rest ih =>
    rw [placedFrom, List.mem_append, List.mem_cons]
    rcases List.mem_cons.1 h with rfl | hrest
    · exact .inr (.inl rfl)
    · exact .inr (.inr (ih _ hrest))

/-- What is written besides the given words is the fill word, at addresses that none of them has. -/
theorem mem_or_fill_of_mem_placedFrom {fill : Word} {next : ℕ} {words : List PlacedWord}
    (hascends : Ascends next words) {word : PlacedWord}
    (h : word ∈ placedFrom (some fill) next words) :
    word ∈ words ∨ word.code = fill ∧ word.label = "fill" ∧
      word.address ∉ words.map PlacedWord.address := by
  induction words generalizing next with
  | nil => cases h
  | cons other rest ih =>
    rw [placedFrom, placedFrom_min hascends.tail, List.mem_append, List.mem_cons] at h
    rcases h with hgap | rfl | hrest
    · obtain ⟨address, haddress, rfl⟩ := List.mem_map.1 hgap
      rw [List.mem_range'_1] at haddress
      refine .inr ⟨rfl, rfl, fun hmem ↦ ?_⟩
      obtain hsame | hlater := List.mem_cons.1 hmem
      · dsimp only at hsame
        omega
      · obtain ⟨later, hlater, hsame⟩ := List.mem_map.1 hlater
        have hbound := (hascends.tail.2 later hlater).1
        dsimp only at hsame
        omega
    · exact .inl List.mem_cons_self
    · rcases ih hascends.tail hrest with hmem | ⟨hcode, hlabel, habsent⟩
      · exact .inl (List.mem_cons_of_mem _ hmem)
      · refine .inr ⟨hcode, hlabel, fun hmem ↦ ?_⟩
        obtain hsame | hlater := List.mem_cons.1 hmem
        · -- Nothing after a word is written at its address.
          have haddress : word.address ∈
              (placedFrom (some fill) (other.address + 1) rest).map PlacedWord.address :=
            List.mem_map_of_mem hrest
          rw [map_address_placedFrom fill hascends.tail, List.mem_range'_1] at haddress
          omega
        · exact habsent hlater

/-! ## The memory of a program -/

/-- The words of the program memory up to the last command: each command's word at its address, and
the fill word at every other. -/
structure Fills (program : Program) (fill : Word) (words : Image) : Prop where
  length_eq : words.length = program.span
  code_at : ∀ command ∈ program.commands, words[command.address.toNat]? = some command.code
  fill_at : ∀ address < program.span,
    (∀ command ∈ program.commands, command.address.toNat ≠ address) → words[address]? = some fill

/-- Some address before the last command belongs to no command. -/
def HasGap (program : Program) : Prop :=
  ∃ address < program.span, ∀ command ∈ program.commands, command.address.toNat ≠ address

/-- The commands stand in the order of their addresses. -/
def IsOrdered (program : Program) : Prop :=
  (program.commands.map fun command ↦ command.address.toNat).Pairwise (· < ·)

variable {program : Program}

theorem mem_image {word : PlacedWord} :
    word ∈ program.image ↔ ∃ command ∈ program.commands, PlacedWord.ofCommand command = word :=
  List.mem_map

theorem ascends_image (h : program.IsOrdered) : Ascends 0 program.image := by
  refine ⟨?_, fun word hmem ↦ ⟨Nat.zero_le _, ?_⟩⟩
  · rw [image, List.map_map]
    exact h
  · obtain ⟨command, -, rfl⟩ := mem_image.1 hmem
    exact Nat.le_of_lt_succ command.address.toNat_lt

theorem endFrom_image (program : Program) : endFrom 0 program.image = program.span := by
  unfold endFrom span image
  rw [List.getLast?_map]
  cases program.commands.getLast? <;> rfl

theorem map_address_placedWords (h : program.IsOrdered) (fill : Word) :
    (program.placedWords (some fill)).map PlacedWord.address = List.range program.span := by
  rw [placedWords, map_address_placedFrom fill (ascends_image h), endFrom_image, Nat.sub_zero,
    List.range_eq_range']

theorem getElem?_placedWords_of_mem (h : program.IsOrdered) {fill : Word} {word : PlacedWord}
    (hmem : word ∈ program.placedWords (some fill)) :
    (program.placedWords (some fill))[word.address]? = some word := by
  obtain ⟨place, hplace⟩ := List.mem_iff_getElem?.1 hmem
  have haddress := congrArg (fun addresses ↦ addresses[place]?) (map_address_placedWords h fill)
  simp only [List.getElem?_map, hplace, Option.map_some] at haddress
  obtain ⟨hlt, hsame⟩ := List.getElem?_eq_some_iff.1 haddress.symm
  rw [List.getElem_range] at hsame
  rw [← hsame, hplace]

theorem fills_placedWords (h : program.IsOrdered) (fill : Word) :
    program.Fills fill ((program.placedWords (some fill)).map PlacedWord.code) := by
  have haddresses := map_address_placedWords h fill
  have hlength : (program.placedWords (some fill)).length = program.span := by
    rw [← List.length_map PlacedWord.address, haddresses, List.length_range]
  refine ⟨by rw [List.length_map, hlength], fun command hmem ↦ ?_, fun address hlt hnone ↦ ?_⟩
  · have hplaced : PlacedWord.ofCommand command ∈ program.placedWords (some fill) :=
      mem_placedFrom_of_mem _ _ (mem_image.2 ⟨command, hmem, rfl⟩)
    rw [List.getElem?_map]
    exact congrArg (Option.map PlacedWord.code) (getElem?_placedWords_of_mem h hplaced)
  · obtain ⟨word, hword, rfl⟩ : ∃ word ∈ program.placedWords (some fill),
        word.address = address := by
      rw [← List.mem_map, haddresses]
      exact List.mem_range.2 hlt
    rcases mem_or_fill_of_mem_placedFrom (ascends_image h) hword with himage | ⟨hcode, -, -⟩
    · obtain ⟨command, hcommand, rfl⟩ := mem_image.1 himage
      exact absurd rfl (hnone command hcommand)
    · rw [List.getElem?_map, getElem?_placedWords_of_mem h hword, Option.map_some, hcode]

/-! ## Reading images back -/

theorem isLabelled_ofCommand (command : Command) : (PlacedWord.ofCommand command).IsLabelled := by
  change ∀ c ∈ command.opcode.mnemonic.toList, Text.isWord c = true
  rw [← List.all_eq_true]
  cases command.opcode <;> decide

theorem isLabelled_of_mem_placedWords (h : program.IsOrdered) {fill : Word} {word : PlacedWord}
    (hmem : word ∈ program.placedWords (some fill)) : word.IsLabelled := by
  rcases mem_or_fill_of_mem_placedFrom (ascends_image h) hmem with himage | ⟨-, hlabel, -⟩
  · obtain ⟨command, -, rfl⟩ := mem_image.1 himage
    exact isLabelled_ofCommand command
  · rw [PlacedWord.IsLabelled, hlabel, ← List.all_eq_true]
    decide

theorem ofText_textImage_none
    (hnarrow : ∀ command ∈ program.commands, command.code.toNat < Bits.capacity wordBits) :
    Image.ofText (program.textImage none) = .ok program.codes := by
  have hwords : program.placedWords none = program.image := placedFrom_none _ _
  rw [textImage, hwords, Image.ofText_flatMap_render, image, List.map_map]
  · rfl
  · intro word hmem
    obtain ⟨command, -, rfl⟩ := mem_image.1 hmem
    exact isLabelled_ofCommand command
  · intro word hmem
    obtain ⟨command, hcommand, rfl⟩ := mem_image.1 hmem
    exact hnarrow command hcommand

theorem ofBytes_binaryImage_none (program : Program) :
    Image.ofBytes 0 (program.binaryImage none) = .ok program.codes := by
  have hwords : program.placedWords none = program.image := placedFrom_none _ _
  rw [binaryImage, hwords, Image.ofBytes_flatMap_bytes, image, List.map_map]
  rfl

/-- A word of the image is too wide only if the fill word is, and if it was used. -/
theorem narrow_placedWords_iff (h : program.IsOrdered)
    (hnarrow : ∀ command ∈ program.commands, command.code.toNat < Bits.capacity wordBits)
    (fill : Word) :
    (∀ word ∈ program.placedWords (some fill), word.code.toNat < Bits.capacity wordBits) ↔
      fill.toNat < 0x8000 ∨ ¬ program.HasGap := by
  constructor
  · intro hall
    rw [or_iff_not_imp_right, not_not]
    rintro ⟨address, hlt, hnone⟩
    have hfill := (fills_placedWords h fill).fill_at address hlt hnone
    obtain ⟨word, hword, hcode⟩ := List.mem_map.1 (List.mem_of_getElem? hfill)
    exact hcode ▸ hall word hword
  · intro hfill word hword
    rcases mem_or_fill_of_mem_placedFrom (ascends_image h) hword with
      himage | ⟨hcode, -, habsent⟩
    · obtain ⟨command, hcommand, rfl⟩ := mem_image.1 himage
      exact hnarrow command hcommand
    · have hgap : program.HasGap := by
        refine ⟨word.address, ?_, fun command hcommand hsame ↦ habsent ?_⟩
        · rw [← List.mem_range, ← map_address_placedWords h fill]
          exact List.mem_map_of_mem hword
        · exact List.mem_map.2 ⟨_, mem_image.2 ⟨command, hcommand, rfl⟩, hsame⟩
      rw [hcode]
      exact hfill.resolve_right (not_not.2 hgap)

theorem exists_ofText_iff (h : program.IsOrdered)
    (hnarrow : ∀ command ∈ program.commands, command.code.toNat < Bits.capacity wordBits)
    (fill : Word) :
    ((∃ words, Image.ofText (program.textImage (some fill)) = .ok words) ↔
        fill.toNat < 0x8000 ∨ ¬ program.HasGap) ∧
      ∀ words, Image.ofText (program.textImage (some fill)) = .ok words →
        words = (program.placedWords (some fill)).map PlacedWord.code := by
  have hlabel : ∀ word ∈ program.placedWords (some fill), word.IsLabelled :=
    fun _ ↦ isLabelled_of_mem_placedWords h
  rw [← narrow_placedWords_iff h hnarrow]
  by_cases hall : ∀ word ∈ program.placedWords (some fill),
      word.code.toNat < Bits.capacity wordBits
  · have hread := Image.ofText_flatMap_render hlabel hall
    refine ⟨iff_of_true ⟨_, hread⟩ hall, fun words hwords ↦ ?_⟩
    exact Except.ok.inj (hwords.symm.trans hread)
  · simp only [not_forall, not_lt] at hall
    obtain ⟨word, hword, hwide⟩ := hall
    obtain ⟨fault, hfault⟩ := Image.ofText_flatMap_render_error hlabel ⟨word, hword, hwide⟩
    have hnone (words : Image) : Image.ofText (program.textImage (some fill)) ≠ .ok words := by
      rw [textImage, hfault]
      exact fun heq ↦ by cases heq
    refine ⟨iff_of_false (fun ⟨words, hwords⟩ ↦ hnone words hwords) fun hall ↦ ?_, ?_⟩
    · exact absurd (hall word hword) (by omega)
    · exact fun words hwords ↦ absurd hwords (hnone words)

/-- What linking a resolved draft leaves: ordered commands with the words of their own encoding, and
branches to commands that exist. -/
structure IsLinked (program : Program) : Prop where
  ordered : program.IsOrdered
  encodes : ∀ command ∈ program.commands, command.encode program.symbols = .ok command.code
  targets : ∀ command ∈ program.commands, command.opcode.family = .branch →
    ∃ name symbol target, command.target? = some name ∧ program.symbols.get? name = some symbol ∧
      program.commands[symbol.commandIndex]? = some target ∧ symbol.address = some target.address

theorem isLinked_of_assemble {settings : Settings} {source : List SourceLine}
    (h : (assemble settings source).2 = .ok program) : program.IsLinked := by
  rw [(assemble_eq_assembleInto h).2] at h
  obtain ⟨reader, commands, validated, -, hvalidate, hlink, -⟩ := exists_passes_of_assembleInto h
  obtain ⟨rfl, -, hfaults⟩ := Draft.of_validate_eq_ok hvalidate
  have hresolved := Draft.isResolved_validated settings.branchAlignment hfaults
  obtain ⟨hfit, ⟨report, hprogram⟩, -⟩ := Draft.of_link_eq_ok hlink
  refine ⟨?_, Draft.encode_of_link hlink, fun command hmem hbranch ↦ ?_⟩
  · rw [IsOrdered, hprogram, Draft.map_address_linked hfit]
    exact Layout.pairwise_addresses _ _
  · rw [hprogram] at hmem ⊢
    exact Draft.exists_linked_target hresolved report hmem hbranch

/-- In the words of the memory, a branch goes to the word of the command that its symbol names. -/
theorem IsLinked.exists_target_word (h : program.IsLinked) {fill : Word} {words : Image}
    (hwords : program.Fills fill words) {branch : Command} (hmem : branch ∈ program.commands)
    (hbranch : branch.opcode.family = .branch) :
    ∃ name symbol address target decoded, branch.target? = some name ∧
      program.symbols.get? name = some symbol ∧ symbol.address = some address ∧
      words[branch.address.toNat]?.bind decode = some decoded ∧ decoded.target? = some address ∧
      program.commands[symbol.commandIndex]? = some target ∧
      words[address.toNat]? = some target.code := by
  obtain ⟨name, symbol, target, htarget, hsymbol, hcommand, haddress⟩ :=
    h.targets branch hmem hbranch
  obtain ⟨decoded, hdecode, hagrees⟩ := Command.exists_agrees_of_encode (h.encodes branch hmem)
  have hop : decoded.op.isBranch = true :=
    (Command.isBranch_iff hagrees.op_eq).2 hbranch
  obtain ⟨name', symbol', address, htarget', hsymbol', haddress', hdecoded⟩ := hagrees.target_eq hop
  obtain rfl : name = name' := Option.some.inj (htarget.symm.trans htarget')
  obtain rfl : symbol = symbol' := Option.some.inj (hsymbol.symm.trans hsymbol')
  obtain rfl : target.address = address := Option.some.inj (haddress.symm.trans haddress')
  refine ⟨name, symbol, target.address, target, decoded, htarget, hsymbol, haddress, ?_, hdecoded,
    hcommand, hwords.code_at target (List.mem_of_getElem? hcommand)⟩
  rw [hwords.code_at branch hmem, Option.bind_some, hdecode]

/-- Both formats of an assembled program are read back to the program memory, gaps filled, and
without a fill word to the words of its commands. A text image is refused just when a gap was filled
with a word wider than 15 bits. In the memory, every branch goes to the command that its symbol
names. -/
theorem images_reload_memory {settings : Settings} {source : List SourceLine} {program : Program}
    (h : (assemble settings source).2 = .ok program) (fill : Word) :
    ∃ words, program.Fills fill words ∧
      ((∃ image, Image.ofText (program.textImage (some fill)) = .ok image) ↔
        fill.toNat < 0x8000 ∨ ¬ program.HasGap) ∧
      (∀ image, Image.ofText (program.textImage (some fill)) = .ok image → image = words) ∧
      Image.ofBytes 0 (program.binaryImage (some fill)) = .ok words ∧
      Image.ofText (program.textImage none) = .ok program.codes ∧
      Image.ofBytes 0 (program.binaryImage none) = .ok program.codes ∧
      ∀ branch ∈ program.commands, branch.opcode.family = .branch →
        ∃ name symbol address target decoded, branch.target? = some name ∧
          program.symbols.get? name = some symbol ∧ symbol.address = some address ∧
          words[branch.address.toNat]?.bind decode = some decoded ∧
          decoded.target? = some address ∧
          program.commands[symbol.commandIndex]? = some target ∧
          words[address.toNat]? = some target.code := by
  have hlinked := isLinked_of_assemble h
  have hnarrow : ∀ command ∈ program.commands, command.code.toNat < Bits.capacity wordBits :=
    fun command hmem ↦ Command.code_lt_of_encode (hlinked.encodes command hmem)
  have hfills := fills_placedWords hlinked.ordered fill
  obtain ⟨hiff, hread⟩ := exists_ofText_iff hlinked.ordered hnarrow fill
  exact ⟨_, hfills, hiff, hread, Image.ofBytes_flatMap_bytes _, ofText_textImage_none hnarrow,
    ofBytes_binaryImage_none program,
    fun branch hmem hbranch ↦ hlinked.exists_target_word hfills hmem hbranch⟩

/-- An image with a gap before the target of its branch, filled with a word that no text image may
hold. -/
theorem images_reload_memory_gap :
    ∃ program, (assemble {} (SourceLine.ofText
        "JUMP @end\nNOOP 3\nA NOOP 4\n@end: LD REG5, 200".toList)).2 = .ok program ∧
      program.addresses = [0, 1, 2, 4] ∧
      ∃ words, program.Fills 0xFFFF words ∧
        Image.ofBytes 0 (program.binaryImage (some 0xFFFF)) = .ok words := by
  generalize hsource : SourceLine.ofText
    "JUMP @end\nNOOP 3\nA NOOP 4\n@end: LD REG5, 200".toList = source
  have hresult : (assemble {} source).2.toOption.map addresses = some [0, 1, 2, 4] := by
    rw [← hsource]
    decide +kernel
  rcases hassemble : (assemble {} source).2 with failure | program
  · simp [hassemble, Except.toOption] at hresult
  · have haddresses : program.addresses = [0, 1, 2, 4] := by
      simpa [hassemble, Except.toOption] using hresult
    obtain ⟨words, hfills, -, -, hbytes, -⟩ := images_reload_memory hassemble 0xFFFF
    exact ⟨program, rfl, haddresses, words, hfills, hbytes⟩

end Program

end Sequencer
