import Mathlib
import Sequencer.Source.Inclusion

/-!
# The unfolding of include directives

Below a directive hang the lines of the file that it includes, below those of them that are
directives the lines of further files, and so on without end where files include each other in a
circle. A line of this unfolding has a place: its index in its file, and before that the place of
the directive that includes the file. In the lexicographic order of places a directive comes before
all that is below it, and the line after the directive comes after that. So places ascend in the
order in which a walk meets them depth first.
-/

namespace Sequencer

namespace Inclusion

/-- The path of the file that a line includes, if it is a directive. -/
def FileLine.includes? (host : Host) (entry : FileLine) : Option Text :=
  entry.target?.map (includedPath host entry)

/-- The lines of the file at a path. One that cannot be read has none. -/
def linesOf (host : Host) (path : Text) : List FileLine :=
  match host.readText path with
  | .ok text => fileLines path text
  | .error _ => []

/-- The lines right below a line. Only a directive has any. -/
def FileLine.included (host : Host) (entry : FileLine) : List FileLine :=
  match entry.includes? host with
  | some path => linesOf host path
  | none => []

/-- The line at a place of the unfolding of some lines. -/
def lineAt (host : Host) : List FileLine → List ℕ → Option FileLine
  | _, [] => none
  | entries, [index] => entries[index]?
  | entries, index :: next :: place =>
    entries[index]?.bind fun entry ↦ lineAt host (entry.included host) (next :: place)

/-- The places of the directives in the unfolding of some lines. -/
def directives (host : Host) (entries : List FileLine) : Set (List ℕ) :=
  {place | ∃ directive path, lineAt host entries place = some directive ∧
    directive.includes? host = some path}

/-- The places of the directives that a walk meets before a place. -/
def earlier (host : Host) (entries : List FileLine) (place : List ℕ) : Set (List ℕ) :=
  {other ∈ directives host entries | other < place}

variable {host : Host} {entry found : FileLine} {entries others rest : List FileLine}

theorem ne_nil_of_lineAt {place : List ℕ} (h : lineAt host entries place = some found) :
    place ≠ [] := by
  rintro rfl
  cases h

theorem lineAt_congr {index index' : ℕ} (h : others[index']? = entries[index]?) (place : List ℕ) :
    lineAt host others (index' :: place) = lineAt host entries (index :: place) := by
  cases place with
  | nil => exact h
  | cons next place => rw [lineAt, lineAt, h]

theorem lt_length_of_lineAt {index : ℕ} {place : List ℕ}
    (h : lineAt host entries (index :: place) = some found) : index < entries.length := by
  by_contra hle
  have hnone : entries[index]? = ([] : List FileLine)[0]? := by
    rw [List.getElem?_eq_none (not_lt.1 hle), List.getElem?_nil]
  rw [← lineAt_congr hnone.symm] at h
  cases place <;> cases h

/-! ## Replacing the first line by the lines below it -/

/-- Where a place goes when the first `count` lines become the lines below a single one. -/
def descend (count : ℕ) : List ℕ → List ℕ
  | [] => []
  | index :: place => if index < count then 0 :: index :: place else (index - count + 1) :: place

theorem descend_of_lt {count index : ℕ} (h : index < count) (place : List ℕ) :
    descend count (index :: place) = 0 :: index :: place := if_pos h

theorem descend_of_le {count index : ℕ} (h : count ≤ index) (place : List ℕ) :
    descend count (index :: place) = (index - count + 1) :: place := if_neg (not_lt.2 h)

theorem zero_lt_of_ne {place : List ℕ} (hnil : place ≠ []) (hzero : place ≠ [0]) :
    [0] < place := by
  match place with
  | [] => exact absurd rfl hnil
  | [0] => exact absurd rfl hzero
  | 0 :: index :: place => exact List.cons_lt_cons_iff.2 (.inr ⟨rfl, List.nil_lt_cons _ _⟩)
  | (index + 1) :: place => exact List.cons_lt_cons_iff.2 (.inl (Nat.succ_pos index))

theorem descend_ne_zero (count : ℕ) (place : List ℕ) : descend count place ≠ [0] := by
  unfold descend
  split
  · simp
  · split <;> simp

theorem strictMono_descend (count : ℕ) : StrictMono (descend count) := by
  intro place other hlt
  match place, other with
  | _, [] => exact absurd hlt (List.not_lt_nil _)
  | [], next :: other =>
    rcases lt_or_ge next count with hnext | hnext
    · rw [descend_of_lt hnext]
      exact List.nil_lt_cons _ _
    · rw [descend_of_le hnext]
      exact List.nil_lt_cons _ _
  | index :: place, next :: other =>
    have hle : index ≤ next := by
      rcases List.cons_lt_cons_iff.1 hlt with h | h <;> omega
    rcases lt_or_ge next count with hnext | hnext
    · rw [descend_of_lt hnext, descend_of_lt (hle.trans_lt hnext), List.cons_lt_cons_iff]
      exact .inr ⟨rfl, hlt⟩
    · rw [descend_of_le hnext]
      rcases lt_or_ge index count with hindex | hindex
      · rw [descend_of_lt hindex, List.cons_lt_cons_iff]
        exact .inl (Nat.succ_pos _)
      · rw [descend_of_le hindex, List.cons_lt_cons_iff]
        exact (List.cons_lt_cons_iff.1 hlt).imp (by omega) fun h ↦ ⟨by rw [h.1], h.2⟩

theorem lineAt_descend (entry : FileLine) (rest : List FileLine) (place : List ℕ) :
    lineAt host (entry :: rest) (descend (entry.included host).length place) =
      lineAt host (entry.included host ++ rest) place := by
  cases place with
  | nil => rfl
  | cons index place =>
    -- the first line on the way is one of those below `entry`, or one of `rest`
    rcases lt_or_ge index (entry.included host).length with hlt | hge
    · rw [descend_of_lt hlt]
      exact lineAt_congr (List.getElem?_append_left hlt).symm place
    · rw [descend_of_le hge]
      apply lineAt_congr
      rw [List.getElem?_cons_succ, List.getElem?_append_right hge]

/-- Every line but the first is reached by descending. -/
theorem exists_descend {place : List ℕ} (h : lineAt host (entry :: rest) place = some found)
    (hfirst : place ≠ [0]) : ∃ other, descend (entry.included host).length other = place := by
  match place with
  | [] => cases h
  | [0] => exact absurd rfl hfirst
  | 0 :: index :: place =>
    have hlt : index < (entry.included host).length := lt_length_of_lineAt h
    exact ⟨index :: place, descend_of_lt hlt place⟩
  | (index + 1) :: place =>
    refine ⟨(index + (entry.included host).length) :: place, ?_⟩
    rw [descend_of_le (Nat.le_add_left _ _), Nat.add_sub_cancel]

theorem mem_directives_descend {place : List ℕ} :
    descend (entry.included host).length place ∈ directives host (entry :: rest) ↔
      place ∈ directives host (entry.included host ++ rest) := by
  simp only [directives, Set.mem_ofPred_eq, lineAt_descend]

theorem mem_directives_zero :
    [0] ∈ directives host (entry :: rest) ↔ ∃ path, entry.includes? host = some path := by
  simp [directives, lineAt]

theorem zero_notMem_directives (h : entry.includes? host = none) (rest : List FileLine) :
    [0] ∉ directives host (entry :: rest) := by
  simp [mem_directives_zero, h]

theorem mem_earlier_descend {place other : List ℕ} :
    descend (entry.included host).length other ∈
        earlier host (entry :: rest) (descend (entry.included host).length place) ↔
      other ∈ earlier host (entry.included host ++ rest) place :=
  and_congr mem_directives_descend (strictMono_descend _).lt_iff_lt

/-! ## Walks -/

/-- The lines at some places of the unfolding are these, in the order of their places. -/
def Visits (host : Host) (entries : List FileLine) (places : Set (List ℕ))
    (visited : List FileLine) : Prop :=
  ∃ order : List (List ℕ), order.Pairwise (· < ·) ∧ (∀ place, place ∈ order ↔ place ∈ places) ∧
    order.map (lineAt host entries) = visited.map some

namespace Visits

variable {places below : Set (List ℕ)} {visited : List FileLine}

theorem empty (host : Host) (entries : List FileLine) : Visits host entries ∅ [] :=
  ⟨[], .nil, fun _ ↦ iff_of_false List.not_mem_nil (Set.notMem_empty _), rfl⟩

theorem exists_mem (h : Visits host entries places visited) {place : List ℕ}
    (hplace : place ∈ places) : ∃ found ∈ visited, lineAt host entries place = some found := by
  obtain ⟨order, -, hmem, hmap⟩ := h
  have hline : lineAt host entries place ∈ visited.map some := by
    rw [← hmap]
    exact List.mem_map_of_mem ((hmem place).2 hplace)
  obtain ⟨found, hfound, heq⟩ := List.mem_map.1 hline
  exact ⟨found, hfound, heq.symm⟩

theorem finite (h : Visits host entries places visited) : places.Finite := by
  obtain ⟨order, -, hmem, -⟩ := h
  exact order.finite_toSet.subset fun place hplace ↦ (hmem place).2 hplace

/-- As many lines are visited as there are places. -/
theorem ncard_eq (h : Visits host entries places visited) : places.ncard = visited.length := by
  obtain ⟨order, hsorted, hmem, hmap⟩ := h
  have hplaces : places = order.toFinset := by
    ext place
    simp [hmem]
  have hnodup : order.Nodup := hsorted.imp ne_of_lt
  calc
    places.ncard = order.toFinset.card := by rw [hplaces, Set.ncard_coe_finset]
    _ = order.length := List.toFinset_card_of_nodup hnodup
    _ = visited.length := by simpa using congrArg List.length hmap

theorem descend (h : Visits host (entry.included host ++ rest) below visited)
    (hplaces : places ⊆ directives host (entry :: rest)) (hfirst : [0] ∉ places)
    (hbelow : ∀ place, Inclusion.descend (entry.included host).length place ∈ places ↔
      place ∈ below) : Visits host (entry :: rest) places visited := by
  obtain ⟨order, hsorted, hmem, hmap⟩ := h
  refine ⟨order.map (Inclusion.descend (entry.included host).length), ?_, fun place ↦ ?_, ?_⟩
  · exact hsorted.map _ fun place other hlt ↦ strictMono_descend _ hlt
  · simp only [List.mem_map, hmem, ← hbelow]
    constructor
    · rintro ⟨other, hother, rfl⟩
      exact hother
    · intro hplace
      obtain ⟨directive, path, hline, -⟩ := hplaces hplace
      obtain ⟨other, rfl⟩ := exists_descend hline fun hzero ↦ hfirst (hzero ▸ hplace)
      exact ⟨other, hplace, rfl⟩
  · rw [List.map_map, ← hmap]
    exact List.map_congr_left fun place _ ↦ lineAt_descend entry rest place

theorem cons (h : Visits host (entry.included host ++ rest) below visited)
    (hplaces : places ⊆ directives host (entry :: rest)) (hfirst : [0] ∈ places)
    (hbelow : ∀ place, Inclusion.descend (entry.included host).length place ∈ places ↔
      place ∈ below) : Visits host (entry :: rest) places (entry :: visited) := by
  have hrest : Visits host (entry :: rest) (places \ {[0]}) visited := by
    refine h.descend (Set.sdiff_subset.trans hplaces) (fun hmem ↦ hmem.2 rfl) fun place ↦ ?_
    rw [← hbelow]
    exact and_iff_left (descend_ne_zero _ place)
  obtain ⟨order, hsorted, hmem, hmap⟩ := hrest
  refine ⟨[0] :: order, List.pairwise_cons.2 ⟨fun place hplace ↦ ?_, hsorted⟩, fun place ↦ ?_, ?_⟩
  · obtain ⟨hplace, hzero⟩ := (hmem place).1 hplace
    obtain ⟨directive, path, hline, -⟩ := hplaces hplace
    exact zero_lt_of_ne (ne_nil_of_lineAt hline) hzero
  · rw [List.mem_cons, hmem, Set.mem_sdiff, Set.mem_singleton_iff]
    by_cases hzero : place = [0]
    · simp [hzero, hfirst]
    · simp [hzero]
  · rw [List.map_cons, List.map_cons, hmap]
    rfl

/-- What is met before a line below a plain one, or after it. -/
theorem earlier_plain (hplain : entry.includes? host = none) {place : List ℕ}
    (h : Visits host (entry.included host ++ rest)
      (earlier host (entry.included host ++ rest) place) visited) :
    Visits host (entry :: rest) (earlier host (entry :: rest)
      (Inclusion.descend (entry.included host).length place)) visited :=
  h.descend (fun _ hother ↦ hother.1) (fun hzero ↦ zero_notMem_directives hplain rest hzero.1)
    fun _ ↦ mem_earlier_descend

/-- What is met before a line below a directive, or after it, begins with the directive. -/
theorem earlier_directive {path : Text} (hpath : entry.includes? host = some path)
    {place : List ℕ} (hline : lineAt host (entry.included host ++ rest) place = some found)
    (h : Visits host (entry.included host ++ rest)
      (earlier host (entry.included host ++ rest) place) visited) :
    Visits host (entry :: rest) (earlier host (entry :: rest)
      (Inclusion.descend (entry.included host).length place)) (entry :: visited) := by
  have hfirst : [0] < Inclusion.descend (entry.included host).length place := by
    rw [← lineAt_descend] at hline
    exact zero_lt_of_ne (ne_nil_of_lineAt hline) (descend_ne_zero _ place)
  exact h.cons (fun _ hother ↦ hother.1) ⟨mem_directives_zero.2 ⟨path, hpath⟩, hfirst⟩
    fun _ ↦ mem_earlier_descend

end Visits

end Inclusion

end Sequencer
