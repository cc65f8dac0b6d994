import Mathlib
import Sequencer.Image.Listing
import Sequencer.Proofs.RoundTrip

/-!
# Runs of words

The code tree of the machine is full, so just the words of 15 bits decode. A run of words is decoded
as a whole, or it ends at the first word of more bits. A listing is such a run at the addresses of
an image, so listings of ranges that meet are one listing of both.
-/

namespace Sequencer

/-! ## Words that decode -/

namespace CodeTree

/-- Whatever bits there are, so many of them lead to an operation. -/
def isFull : CodeTree → ℕ → Bool
  | leaf _, _ => true
  | node zero one, depth + 1 => zero.isFull depth && one.isFull depth
  | _, _ => false

theorem isSome_walk_of_isFull {tree : CodeTree} {bits : List Bool}
    (h : tree.isFull bits.length = true) : (tree.walk bits).isSome = true := by
  induction bits generalizing tree with
  | nil =>
    cases tree with
    | leaf op => rfl
    | empty => cases h
    | node zero one => cases h
  | cons bit bits ih =>
    cases tree with
    | leaf op => rfl
    | empty => cases h
    | node zero one =>
      obtain ⟨hzero, hone⟩ := Bool.and_eq_true_iff.1 h
      rw [walk_node]
      cases bit with
      | false => exact ih hzero
      | true => exact ih hone

theorem isFull_standard : standard.isFull wordBits = true := by decide +kernel

end CodeTree

/-- Just the words of 15 bits decode. -/
theorem isSome_decode (word : Word) : (decode word).isSome = decide (word.toNat < 0x8000) := by
  by_cases hword : word.toNat < 0x8000
  · have hwalk : (CodeTree.standard.walk (Bits.ofNat wordBits word.toNat)).isSome = true := by
      apply CodeTree.isSome_walk_of_isFull
      rw [Bits.length_ofNat]
      exact CodeTree.isFull_standard
    rw [Option.isSome_iff_ne_none, ne_eq, ← CodeTree.decode_eq_none_iff hword] at hwalk
    rw [decide_eq_true hword, Option.isSome_iff_ne_none]
    exact hwalk
  · rw [decode, CodeTree.decode_eq_none_of_wide _ (Nat.le_of_not_lt hword), decide_eq_false hword]
    rfl

theorem isNone_decode_iff {word : Word} : (decode word).isNone = true ↔ 0x8000 ≤ word.toNat := by
  rw [← Option.not_isSome, isSome_decode, Bool.not_eq_true', decide_eq_false_iff_not, Nat.not_lt]

/-- A decoded word still has the word that it was decoded from. -/
theorem raw_of_decode {word : Word} {d : Decoded} (h : decode word = some d) : d.raw = word := by
  have hwidth := (CodeTree.exists_walk_of_decode h).1
  unfold decode CodeTree.decode at h
  rw [if_neg (Nat.not_le.2 hwidth)] at h
  obtain ⟨found, -, hfound⟩ := Option.bind_eq_some_iff.1 h
  rw [← Option.some.inj hfound]

variable {words : List Word} {word : Word} {decoded : List Decoded}

theorem exists_decoded_of_narrow (h : ∀ word ∈ words, word.toNat < 0x8000) :
    ∃ decoded : List Decoded, words.map decode = decoded.map some := by
  induction words with
  | nil => exact ⟨[], rfl⟩
  | cons word rest ih =>
    rw [List.forall_mem_cons] at h
    have hsome : (decode word).isSome = true := by rw [isSome_decode, decide_eq_true h.1]
    obtain ⟨d, hd⟩ := Option.isSome_iff_exists.1 hsome
    obtain ⟨more, hmore⟩ := ih h.2
    exact ⟨d :: more, by rw [List.map_cons, List.map_cons, hd, hmore]⟩

theorem map_raw_of_map_decode (h : words.map decode = decoded.map some) :
    decoded.map Decoded.raw = words := by
  induction words generalizing decoded with
  | nil =>
    rw [List.map_eq_nil_iff.1 h.symm]
    rfl
  | cons word rest ih =>
    cases decoded with
    | nil => cases h
    | cons d more =>
      rw [List.map_cons, List.map_cons, List.cons.injEq] at h
      rw [List.map_cons, raw_of_decode h.1, ih h.2]

/-! ## The word that ends a run -/

/-- The word at `index` has more than 15 bits, and no word before it has. -/
structure IsFirstWide (words : List Word) (index : ℕ) (word : Word) : Prop where
  word_eq : words[index]? = some word
  wide : 0x8000 ≤ word.toNat
  narrow : ∀ earlier < index, ∀ other, words[earlier]? = some other → other.toNat < 0x8000

theorem firstUndecodable?_eq_none_iff :
    firstUndecodable? words = none ↔ ∀ word ∈ words, word.toNat < 0x8000 := by
  rw [firstUndecodable?, List.find?_eq_none]
  constructor
  · intro h word hmem
    obtain ⟨index, hindex⟩ := List.mem_iff_getElem?.1 hmem
    have hdecodes := h (word, index) (List.mem_zipIdx_iff_getElem?.2 hindex)
    exact Nat.not_le.1 (isNone_decode_iff.not.1 hdecodes)
  · rintro h ⟨word, index⟩ hmem
    exact isNone_decode_iff.not.2 (Nat.not_le.2 (h word (List.fst_mem_of_mem_zipIdx hmem)))

theorem firstUndecodable?_eq_some_iff {index : ℕ} :
    firstUndecodable? words = some (word, index) ↔ IsFirstWide words index word := by
  rw [firstUndecodable?, List.find?_eq_some_iff_getElem]
  simp only [List.length_zipIdx, List.getElem_zipIdx, Nat.zero_add, Prod.mk.injEq,
    Bool.not_eq_true', ← Bool.not_eq_true, isNone_decode_iff, Nat.not_le]
  constructor
  · rintro ⟨hwide, place, hplace, ⟨hword, rfl⟩, hearlier⟩
    refine ⟨List.getElem?_eq_some_iff.2 ⟨hplace, hword⟩, hwide, fun earlier hlt other hother ↦ ?_⟩
    obtain ⟨_, rfl⟩ := List.getElem?_eq_some_iff.1 hother
    exact hearlier earlier hlt
  · intro h
    obtain ⟨hindex, hword⟩ := List.getElem?_eq_some_iff.1 h.word_eq
    refine ⟨h.wide, index, hindex, ⟨hword, rfl⟩, fun earlier hlt ↦ ?_⟩
    exact h.narrow earlier hlt _ (List.getElem?_eq_getElem (hlt.trans hindex))

/-- Either all words of a run decode, or one of them is the first that does not. -/
theorem decodes_or_exists_isFirstWide (words : List Word) :
    (∃ decoded : List Decoded, words.map decode = decoded.map some) ∨
      ∃ index word, IsFirstWide words index word := by
  cases hfirst : firstUndecodable? words with
  | none => exact .inl (exists_decoded_of_narrow (firstUndecodable?_eq_none_iff.1 hfirst))
  | some found => exact .inr ⟨found.2, found.1, firstUndecodable?_eq_some_iff.1 hfirst⟩

theorem narrow_of_map_decode (h : words.map decode = decoded.map some) :
    ∀ word ∈ words, word.toNat < 0x8000 := by
  intro word hmem
  have hword : decode word ∈ decoded.map some := h ▸ List.mem_map_of_mem hmem
  obtain ⟨d, -, hd⟩ := List.mem_map.1 hword
  exact of_decide_eq_true ((isSome_decode word).symm.trans (by rw [← hd]; rfl))

namespace IsFirstWide

variable {front back : List Word} {index : ℕ}

theorem mem (h : IsFirstWide words index word) : word ∈ words := List.mem_of_getElem? h.word_eq

theorem append (h : IsFirstWide front index word) (back : List Word) :
    IsFirstWide (front ++ back) index word := by
  have hindex := (List.getElem?_eq_some_iff.1 h.word_eq).1
  refine ⟨?_, h.wide, fun earlier hlt other hother ↦ ?_⟩
  · rw [List.getElem?_append_left hindex, h.word_eq]
  · rw [List.getElem?_append_left (hlt.trans hindex)] at hother
    exact h.narrow earlier hlt other hother

/-- Words that decode are passed over. -/
theorem behind (h : IsFirstWide back index word) (hfront : ∀ word ∈ front, word.toNat < 0x8000) :
    IsFirstWide (front ++ back) (front.length + index) word := by
  refine ⟨?_, h.wide, fun earlier hlt other hother ↦ ?_⟩
  · rw [List.getElem?_append_right (Nat.le_add_right _ _), Nat.add_sub_cancel_left, h.word_eq]
  · by_cases hshort : earlier < front.length
    · rw [List.getElem?_append_left hshort] at hother
      exact hfront other (List.mem_of_getElem? hother)
    · rw [List.getElem?_append_right (Nat.le_of_not_lt hshort)] at hother
      exact h.narrow _ (by omega) other hother

end IsFirstWide

/-- The first word of more than 15 bits ends a disassembly with a fatal diagnostic. -/
theorem disassemble_of_isFirstWide {index : ℕ} (h : IsFirstWide words index word)
    (report : Report) :
    ∃ message, disassemble words report =
      ((report.fatal .disassembler none message).1, .error (.unknownWord index word)) := by
  unfold disassemble
  rw [firstUndecodable?_eq_some_iff.2 h]
  exact ⟨_, rfl⟩

/-- What a disassembly is to be. It gives the decoded words and leaves the report alone, or it names
the first word of more than 15 bits and adds one diagnostic, a fatal one. -/
structure Disassembles (words : List Word) (report : Report)
    (run : Report × Except Failure (List Decoded)) : Prop where
  succeeds_iff : (∃ decoded, run.2 = .ok decoded) ↔ ∀ word ∈ words, word.toNat < 0x8000
  of_ok : ∀ decoded, run.2 = .ok decoded →
    run.1 = report ∧ words.map decode = decoded.map some ∧ decoded.map Decoded.raw = words
  of_error : ∀ failure, run.2 = .error failure → ∃ index word, IsFirstWide words index word ∧
    failure = .unknownWord index word ∧ ∃ d : Diagnostic, d.severity = .fatal ∧
      run.1 = { report with diagnostics := report.diagnostics ++ [d] }

theorem disassembles (words : List Word) (report : Report) :
    Disassembles words report (disassemble words report) := by
  obtain ⟨decoded, hdecoded⟩ | ⟨index, word, hwide⟩ := decodes_or_exists_isFirstWide words
  · rw [disassemble_of_map_decode hdecoded]
    refine ⟨iff_of_true ⟨decoded, rfl⟩ (narrow_of_map_decode hdecoded), ?_, ?_⟩
    · rintro _ ⟨⟩
      exact ⟨rfl, hdecoded, map_raw_of_map_decode hdecoded⟩
    · rintro _ ⟨⟩
  · obtain ⟨message, hrun⟩ := disassemble_of_isFirstWide hwide report
    rw [hrun]
    refine ⟨iff_of_false ?_ ?_, ?_, ?_⟩
    · rintro ⟨_, ⟨⟩⟩
    · exact fun hnarrow ↦ Nat.not_lt.2 hwide.wide (hnarrow word hwide.mem)
    · rintro _ ⟨⟩
    · rintro _ ⟨⟩
      exact ⟨index, word, hwide, rfl, _, rfl, rfl⟩

/-! ## Listings -/

namespace Image

variable {image : Image} {start mid stop : ℕ}

/-- Decoded words at the addresses from `start` on. -/
def listedFrom (start : ℕ) (decoded : List Decoded) : List ListedWord :=
  (decoded.zipIdx start).map fun entry ↦ { address := entry.2, decoded := entry.1 }

theorem listedFrom_append (start : ℕ) (front back : List Decoded) :
    listedFrom start (front ++ back) =
      listedFrom start front ++ listedFrom (start + front.length) back := by
  rw [listedFrom, List.zipIdx_append, List.map_append]
  rfl

theorem map_address_listedFrom (start : ℕ) (decoded : List Decoded) :
    (listedFrom start decoded).map ListedWord.address = List.range' start decoded.length := by
  rw [listedFrom, List.map_map, ← List.zipIdx_map_snd]
  rfl

theorem exists_index_of_mem_listedFrom {entry : ListedWord} (h : entry ∈ listedFrom start decoded) :
    ∃ index, entry.address = start + index ∧ decoded[index]? = some entry.decoded := by
  obtain ⟨⟨d, address⟩, hmem, rfl⟩ := List.mem_map.1 h
  obtain ⟨hle, hd⟩ := List.mk_mem_zipIdx_iff_le_and_getElem?_sub.1 hmem
  exact ⟨address - start, (Nat.add_sub_cancel' hle).symm, hd⟩

theorem listing_of_map_decode (h : (image.slice start stop).map decode = decoded.map some) :
    image.listing start stop = .ok (listedFrom start decoded) := by
  have hlisted : listedFrom start decoded =
      decoded.zipIdx.map fun entry ↦ { address := start + entry.2, decoded := entry.1 } := by
    rw [listedFrom, List.zipIdx_eq_map_add, List.map_map]
    rfl
  unfold listing
  dsimp only
  rw [firstUndecodable?_eq_none_iff.2 (narrow_of_map_decode h), filterMap_of_map_decode h, hlisted]

theorem listing_of_isFirstWide {index : ℕ} (h : IsFirstWide (image.slice start stop) index word) :
    image.listing start stop = .error { address := start + index, word } := by
  unfold listing
  dsimp only
  rw [firstUndecodable?_eq_some_iff.2 h]

theorem length_slice (image : Image) (start stop : ℕ) :
    (image.slice start stop).length = min stop image.length - start := by
  rw [slice, List.length_drop, List.length_take]

theorem getElem?_slice_eq_some_iff {index : ℕ} :
    (image.slice start stop)[index]? = some word ↔
      start + index < stop ∧ image[start + index]? = some word := by
  rw [slice, List.getElem?_drop, List.getElem?_take, Option.ite_none_right_eq_some]

theorem slice_append (image : Image) (hstart : start ≤ mid) (hstop : mid ≤ stop) :
    image.slice start stop = image.slice start mid ++ image.slice mid stop := by
  have hlength : stop - start = (mid - start) + (stop - mid) := by omega
  simp only [slice, List.drop_take]
  rw [hlength, List.take_add, List.drop_drop, Nat.add_sub_cancel' hstart]

/-- A range that begins within the image is as long as its bounds are apart. -/
theorem start_add_length_slice (hstart : start ≤ mid) (hne : image.slice mid stop ≠ []) :
    start + (image.slice start mid).length = mid := by
  have hpos := List.length_pos_iff.2 hne
  rw [length_slice] at hpos ⊢
  omega

/-- Listings of ranges that meet are one listing of both, also where there is a word that does not
decode. -/
theorem listing_append (image : Image) (hstart : start ≤ mid) (hstop : mid ≤ stop) :
    image.listing start stop = do
      let front ← image.listing start mid
      let back ← image.listing mid stop
      return front ++ back := by
  have hslice := slice_append image hstart hstop
  obtain ⟨front, hfront⟩ | ⟨index, word, hwide⟩ :=
    decodes_or_exists_isFirstWide (image.slice start mid)
  · rw [listing_of_map_decode hfront]
    obtain ⟨back, hback⟩ | ⟨index, word, hwide⟩ :=
      decodes_or_exists_isFirstWide (image.slice mid stop)
    · have hwhole : (image.slice start stop).map decode = (front ++ back).map some := by
        rw [hslice, List.map_append, List.map_append, hfront, hback]
      have hplaced : listedFrom (start + front.length) back = listedFrom mid back := by
        cases back with
        | nil => rfl
        | cons d more =>
          have hne : image.slice mid stop ≠ [] := by
            intro hnil
            rw [hnil] at hback
            cases hback
          have hlength : (image.slice start mid).length = front.length := by
            simpa using congrArg List.length hfront
          rw [← hlength, start_add_length_slice hstart hne]
      rw [listing_of_map_decode hback, listing_of_map_decode hwhole, listedFrom_append, hplaced]
      rfl
    · have hne : image.slice mid stop ≠ [] := List.ne_nil_of_mem hwide.mem
      have hbehind := hwide.behind (narrow_of_map_decode hfront)
      rw [← hslice] at hbehind
      rw [listing_of_isFirstWide hwide, listing_of_isFirstWide hbehind, ← Nat.add_assoc,
        start_add_length_slice hstart hne]
      rfl
  · have happend := hwide.append (image.slice mid stop)
    rw [← hslice] at happend
    rw [listing_of_isFirstWide happend, listing_of_isFirstWide hwide]
    rfl

/-- What the listing of a range is to be: the decoded words at all of its addresses that the image
has, or the first word in it that does not decode. -/
structure Lists (image : Image) (start stop : ℕ)
    (outcome : Except ListingFault (List ListedWord)) : Prop where
  of_ok : ∀ listed, outcome = .ok listed →
    listed.map ListedWord.address = List.range' start (min stop image.length - start) ∧
      ∀ entry ∈ listed, image[entry.address]? = some entry.word ∧
        decode entry.word = some entry.decoded
  of_error : ∀ fault, outcome = .error fault →
    fault.address ∈ Set.Ico start stop ∧ image[fault.address]? = some fault.word ∧
      decode fault.word = none ∧
      (∀ address ∈ Set.Ico start fault.address, ∀ word, image[address]? = some word →
        (decode word).isSome = true) ∧
      fault.message =
        let word := String.ofList (Numeral.markedHex 4 fault.word.toNat)
        let address := String.ofList (Numeral.markedHex 4 fault.address)
        s!"unrecognized machine code {word} at address {address}"

theorem lists_listing (image : Image) (start stop : ℕ) :
    image.Lists start stop (image.listing start stop) := by
  obtain ⟨decoded, hdecoded⟩ | ⟨index, word, hwide⟩ :=
    decodes_or_exists_isFirstWide (image.slice start stop)
  · rw [listing_of_map_decode hdecoded]
    refine ⟨?_, by rintro _ ⟨⟩⟩
    rintro _ ⟨⟩
    have hlength : decoded.length = min stop image.length - start := by
      rw [← length_slice]
      simpa using (congrArg List.length hdecoded).symm
    refine ⟨by rw [map_address_listedFrom, hlength], fun entry hmem ↦ ?_⟩
    obtain ⟨index, haddress, hd⟩ := exists_index_of_mem_listedFrom hmem
    obtain ⟨word, hword, hdecode⟩ :
        ∃ word, (image.slice start stop)[index]? = some word ∧
          decode word = some entry.decoded := by
      simpa [hd] using congrArg (·[index]?) hdecoded
    have hraw : entry.word = word := raw_of_decode hdecode
    rw [hraw, haddress]
    exact ⟨(getElem?_slice_eq_some_iff.1 hword).2, hdecode⟩
  · rw [listing_of_isFirstWide hwide]
    refine ⟨by rintro _ ⟨⟩, ?_⟩
    rintro _ ⟨⟩
    obtain ⟨hlt, hword⟩ := getElem?_slice_eq_some_iff.1 hwide.word_eq
    refine ⟨⟨Nat.le_add_right start index, hlt⟩, hword,
      Option.isNone_iff_eq_none.1 (isNone_decode_iff.2 hwide.wide), ?_, rfl⟩
    rintro address ⟨hle, hearlier⟩ other hother
    obtain ⟨earlier, rfl⟩ := Nat.exists_eq_add_of_le hle
    have hbefore : earlier < index := Nat.lt_of_add_lt_add_left hearlier
    rw [isSome_decode, decide_eq_true_iff]
    exact hwide.narrow earlier hbefore other
      (getElem?_slice_eq_some_iff.2 ⟨hearlier.trans hlt, hother⟩)

/-- Runs of words and ranges of images decode up to the first word of more than 15 bits. A
disassembly succeeds just if there is none. A listing has an entry for each address of its range
that the image has, and a range may be listed in two parts, wherever it is divided. -/
theorem decodes_runs_and_ranges :
    (∀ (words : List Word) (report : Report),
      Disassembles words report (disassemble words report)) ∧
    (∀ (image : Image) (start stop : ℕ), image.Lists start stop (image.listing start stop)) ∧
    ∀ (image : Image) (start mid stop : ℕ), start ≤ mid → mid ≤ stop →
      ((∃ listed, image.listing start stop = .ok listed) ↔
        (∃ front, image.listing start mid = .ok front) ∧
          ∃ back, image.listing mid stop = .ok back) ∧
      ∀ front back, image.listing start mid = .ok front → image.listing mid stop = .ok back →
        image.listing start stop = .ok (front ++ back) := by
  refine ⟨disassembles, lists_listing, fun image start mid stop hstart hstop ↦ ?_⟩
  rw [listing_append image hstart hstop]
  constructor
  · constructor
    · rintro ⟨listed, hlisted⟩
      obtain ⟨front, hfront, hrest⟩ := Except.bind_eq_ok_iff.1 hlisted
      obtain ⟨back, hback, -⟩ := Except.bind_eq_ok_iff.1 hrest
      exact ⟨⟨front, hfront⟩, back, hback⟩
    · rintro ⟨⟨front, hfront⟩, back, hback⟩
      rw [hfront, hback]
      exact ⟨front ++ back, rfl⟩
  · intro front back hfront hback
    rw [hfront, hback]
    rfl

/-- A range that is divided behind the end of the image, and one whose second part has a word of 16
bits. -/
theorem decodes_runs_and_ranges_past_end :
    let image : Image := [0x6905, 0x2001, 0x8000, 0x3800]
    (∃ front back, image.listing 3 7 = .ok front ∧ image.listing 7 9 = .ok back ∧
      image.listing 3 9 = .ok (front ++ back) ∧
      (front ++ back).map ListedWord.address = [3]) ∧
    (∃ front, image.listing 0 2 = .ok front) ∧ ¬ (∃ back, image.listing 2 9 = .ok back) ∧
      ¬ ∃ listed, image.listing 0 9 = .ok listed := by
  intro image
  have hfront : ∃ front, image.listing 3 7 = .ok front := ⟨_, rfl⟩
  have hback : ∃ back, image.listing 7 9 = .ok back := ⟨_, rfl⟩
  have hwide : image.listing 2 9 = .error { address := 2, word := 0x8000 } := by decide +kernel
  have hnone : ¬ ∃ back, image.listing 2 9 = .ok back := by
    rw [hwide]
    rintro ⟨_, ⟨⟩⟩
  obtain ⟨-, hlists, hranges⟩ := decodes_runs_and_ranges
  obtain ⟨front, hfront⟩ := hfront
  obtain ⟨back, hback⟩ := hback
  have hwhole := (hranges image 3 7 9 (by decide) (by decide)).2 front back hfront hback
  refine ⟨⟨front, back, hfront, hback, hwhole, ((hlists image 3 9).of_ok _ hwhole).1⟩, ⟨_, rfl⟩,
    hnone, fun hlisted ↦ ?_⟩
  exact hnone ((hranges image 0 2 9 (by decide) (by decide)).1.1 hlisted).2

end Image

end Sequencer
