import Mathlib
import Sequencer.Proofs.Except
import Sequencer.Proofs.Unfolding

/-!
# Sources with all that they include

Splicing replaces the first directive by the lines that it includes and goes on from there. It so
walks the unfolding depth first, and ends in one of two ways: at the end of an unfolding that is
finite, readable and within the limit, or at the first directive that is not.
-/

namespace Sequencer

namespace Inclusion

variable {host : Host} {limit left : ℕ} {report : Report} {entry : FileLine}
  {rest entries : List FileLine} {path text : Text}

/-- A directive is announced before its file is read. -/
def announce (host : Host) (report : Report) (directive : FileLine) : Report :=
  report.info .inclusion (some directive.line.number)
    s!"including file {String.ofList ((directive.includes? host).getD [])}"

/-- The line is a directive, and the file that it includes can be read. -/
def FileLine.IsReadable (host : Host) (entry : FileLine) : Prop :=
  ∃ path text, entry.includes? host = some path ∧ host.readText path = .ok text

theorem linesOf_eq (h : host.readText path = .ok text) :
    linesOf host path = fileLines path text := by
  rw [linesOf, h]

theorem included_of_plain (h : entry.includes? host = none) : entry.included host = [] := by
  rw [FileLine.included, h]

theorem included_of_directive (h : entry.includes? host = some path)
    (hread : host.readText path = .ok text) : entry.included host = fileLines path text := by
  rw [FileLine.included, h]
  exact linesOf_eq hread

/-! ## One step of splicing -/

theorem splice_nil (host : Host) (limit left : ℕ) (report : Report) :
    splice host limit left report [] = (report, .ok []) := by
  cases left <;> rfl

theorem splice_plain (h : entry.includes? host = none) :
    splice host limit left report (entry :: rest) =
      ((splice host limit left report rest).1,
        (splice host limit left report rest).2.map (entry.line :: ·)) := by
  have htarget : entry.target? = none := by simpa [FileLine.includes?] using h
  rw [splice.eq_def, splice.eq_def host limit left report rest]
  simp only [List.takeWhile_cons, List.dropWhile_cons, htarget, Option.isNone_none, if_true,
    List.map_cons]
  cases rest.dropWhile fun line ↦ line.target?.isNone with
  | nil => rfl
  | cons directive rest =>
    cases left with
    | zero => rfl
    | succ left =>
      dsimp only
      rcases load host _ _ _ with ⟨next, failure | included⟩
      · rfl
      · dsimp only
        rcases splice host limit left next (included ++ rest) with ⟨after, failure | lines⟩ <;> rfl

/-- What splicing does at a directive. -/
theorem splice_directive (h : entry.includes? host = some path) :
    splice host limit left report (entry :: rest) =
      match left with
      | 0 =>
        ((report.fatal .inclusion (some entry.line.number) (Fault.tooMany limit).message).1,
          .error (.fatal .inclusion (some entry.line.number) (Fault.tooMany limit).message))
      | left + 1 =>
        match host.readText path with
        | .error fault =>
          (((announce host report entry).fatal .inclusion (some entry.line.number)
              (Fault.unreadable path fault).message).1,
            .error (.fatal .inclusion (some entry.line.number)
              (Fault.unreadable path fault).message))
        | .ok text =>
          splice host limit left (announce host report entry) (fileLines path text ++ rest) := by
  obtain ⟨target, htarget, hpath⟩ := Option.map_eq_some_iff.1 h
  rw [splice.eq_def]
  simp only [List.takeWhile_cons, List.dropWhile_cons, htarget, Option.isNone_some,
    Bool.false_eq_true, if_false, Option.getD_some, hpath, announce, h]
  cases left with
  | zero => rfl
  | succ left =>
    simp only [load]
    cases host.readText path with
    | error fault => rfl
    | ok text =>
      dsimp only
      rcases splice host limit left _ _ with ⟨after, failure | lines⟩ <;> rfl

/-! ## The end of an unfolding -/

/-- Every line stands for itself, and a directive for what the lines of its file stand for. -/
inductive Expands (host : Host) : List FileLine → List SourceLine → Prop where
  | nil : Expands host [] []
  | plain {entry : FileLine} {rest : List FileLine} {lines : List SourceLine}
      (includes_eq : entry.includes? host = none) (after : Expands host rest lines) :
      Expands host (entry :: rest) (entry.line :: lines)
  | directive {entry : FileLine} {rest : List FileLine} {path text : Text}
      {below lines : List SourceLine} (includes_eq : entry.includes? host = some path)
      (read_eq : host.readText path = .ok text) (inside : Expands host (fileLines path text) below)
      (after : Expands host rest lines) : Expands host (entry :: rest) (below ++ lines)

theorem Expands.exists_append {lines : List SourceLine} (h : Expands host (entries ++ rest) lines) :
    ∃ front back, lines = front ++ back ∧ Expands host entries front ∧ Expands host rest back := by
  induction entries generalizing lines with
  | nil => exact ⟨[], lines, rfl, .nil, h⟩
  | cons entry entries ih =>
    cases h with
    | plain includes_eq after =>
      obtain ⟨front, back, rfl, hfront, hback⟩ := ih after
      exact ⟨entry.line :: front, back, rfl, .plain includes_eq hfront, hback⟩
    | directive includes_eq read_eq inside after =>
      obtain ⟨front, back, rfl, hfront, hback⟩ := ih after
      exact ⟨_, back, (List.append_assoc _ _ _).symm,
        .directive includes_eq read_eq inside hfront, hback⟩

/-- A line of some file, with its number in this file. -/
def IsNumbered (host : Host) (line : SourceLine) : Prop :=
  ∃ path text index, host.readText path = .ok text ∧
    (Text.lines text)[index]? = some line.text ∧ line.number = index + 1

theorem isNumbered_of_mem_fileLines (hread : host.readText path = .ok text)
    (hmem : entry ∈ fileLines path text) : IsNumbered host entry.line := by
  obtain ⟨line, hline, rfl⟩ := List.mem_map.1 hmem
  obtain ⟨⟨written, index⟩, hindex, rfl⟩ := List.mem_map.1 hline
  exact ⟨path, text, index, hread, List.mem_zipIdx_iff_getElem?.1 hindex, rfl⟩

theorem Expands.isNumbered {lines : List SourceLine} (h : Expands host entries lines)
    (hentries : ∀ entry ∈ entries, IsNumbered host entry.line) :
    ∀ line ∈ lines, IsNumbered host line ∧ target? line.text = none := by
  induction h with
  | nil => exact List.forall_mem_nil _
  | plain includes_eq after ih =>
    rw [List.forall_mem_cons] at hentries ⊢
    exact ⟨⟨hentries.1, Option.map_eq_none_iff.1 includes_eq⟩, ih hentries.2⟩
  | directive includes_eq read_eq inside after ihinside ihafter =>
    rw [List.forall_mem_cons] at hentries
    rw [List.forall_mem_append]
    exact ⟨ihinside fun entry ↦ isNumbered_of_mem_fileLines read_eq, ihafter hentries.2⟩

/-- All directives of the unfolding of some lines are visited, at most `left` of them, and each can
be read. -/
structure Completes (host : Host) (left : ℕ) (entries visited : List FileLine)
    (lines : List SourceLine) : Prop where
  visits : Visits host entries (directives host entries) visited
  readable : ∀ directive ∈ visited, directive.IsReadable host
  length_le : visited.length ≤ left
  expands : Expands host entries lines

namespace Completes

variable {visited : List FileLine} {lines : List SourceLine}

theorem nil (host : Host) (left : ℕ) : Completes host left [] [] [] where
  visits := by
    have hnone : directives host [] = ∅ := by
      refine Set.eq_empty_of_forall_notMem fun place hplace ↦ ?_
      obtain ⟨directive, path, hline, -⟩ := hplace
      match place with
      | [] => cases hline
      | index :: place => exact absurd (lt_length_of_lineAt hline) (Nat.not_lt_zero index)
    rw [hnone]
    exact .empty host []
  readable := List.forall_mem_nil _
  length_le := Nat.zero_le left
  expands := .nil

theorem plain (hplain : entry.includes? host = none) (h : Completes host left rest visited lines) :
    Completes host left (entry :: rest) visited (entry.line :: lines) where
  visits := by
    have hbelow : Completes host left (entry.included host ++ rest) visited lines := by
      rwa [included_of_plain hplain]
    exact hbelow.visits.descend subset_rfl (zero_notMem_directives hplain rest) fun place ↦
      mem_directives_descend
  readable := h.readable
  length_le := h.length_le
  expands := .plain hplain h.expands

theorem directive (hpath : entry.includes? host = some path)
    (hread : host.readText path = .ok text)
    (h : Completes host left (fileLines path text ++ rest) visited lines) :
    Completes host (left + 1) (entry :: rest) (entry :: visited) lines where
  visits := by
    rw [← included_of_directive hpath hread] at h
    exact h.visits.cons subset_rfl (mem_directives_zero.2 ⟨path, hpath⟩) fun place ↦
      mem_directives_descend
  readable := List.forall_mem_cons.2 ⟨⟨path, text, hpath, hread⟩, h.readable⟩
  length_le := Nat.succ_le_succ h.length_le
  expands := by
    obtain ⟨below, after, rfl, hbelow, hafter⟩ := h.expands.exists_append
    exact .directive hpath hread hbelow hafter

end Completes

/-! ## The first fault -/

/-- Why a walk through the unfolding of some lines stops at a directive when it may visit `left` of
them: it has visited that many already, or the file of this one cannot be read. The directives that
were announced by then are those visited before, and in the second case the one it stops at. -/
inductive Stops (host : Host) (limit left : ℕ) (entries : List FileLine) :
    List FileLine → Option ℕ → Fault → Prop where
  | tooMany {place : List ℕ} {directive : FileLine} {path : Text} {visited : List FileLine}
      (line_eq : lineAt host entries place = some directive)
      (includes_eq : directive.includes? host = some path)
      (visits : Visits host entries (earlier host entries place) visited)
      (readable : ∀ other ∈ visited, other.IsReadable host) (length_eq : visited.length = left) :
      Stops host limit left entries visited (some directive.line.number) (.tooMany limit)
  | unreadable {place : List ℕ} {directive : FileLine} {path : Text} {fault : FileFault}
      {visited : List FileLine} (line_eq : lineAt host entries place = some directive)
      (includes_eq : directive.includes? host = some path)
      (visits : Visits host entries (earlier host entries place) visited)
      (readable : ∀ other ∈ visited, other.IsReadable host) (length_lt : visited.length < left)
      (read_eq : host.readText path = .error fault) :
      Stops host limit left entries (visited ++ [directive]) (some directive.line.number)
        (.unreadable path fault)

namespace Stops

variable {announced : List FileLine} {line : Option ℕ} {fault : Fault}

theorem plain (hplain : entry.includes? host = none)
    (h : Stops host limit left rest announced line fault) :
    Stops host limit left (entry :: rest) announced line fault := by
  replace h : Stops host limit left (entry.included host ++ rest) announced line fault := by
    rwa [included_of_plain hplain]
  cases h with
  | tooMany line_eq includes_eq visits readable length_eq =>
    have hvisits := visits.earlier_plain hplain
    rw [← lineAt_descend] at line_eq
    exact .tooMany line_eq includes_eq hvisits readable length_eq
  | unreadable line_eq includes_eq visits readable length_lt read_eq =>
    have hvisits := visits.earlier_plain hplain
    rw [← lineAt_descend] at line_eq
    exact .unreadable line_eq includes_eq hvisits readable length_lt read_eq

theorem directive (hpath : entry.includes? host = some path)
    (hread : host.readText path = .ok text)
    (h : Stops host limit left (fileLines path text ++ rest) announced line fault) :
    Stops host limit (left + 1) (entry :: rest) (entry :: announced) line fault := by
  rw [← included_of_directive hpath hread] at h
  have hreadable {visited : List FileLine} (h : ∀ other ∈ visited, other.IsReadable host) :
      ∀ other ∈ entry :: visited, other.IsReadable host :=
    List.forall_mem_cons.2 ⟨⟨path, text, hpath, hread⟩, h⟩
  cases h with
  | tooMany line_eq includes_eq visits readable length_eq =>
    have hvisits := visits.earlier_directive hpath line_eq
    rw [← lineAt_descend] at line_eq
    exact .tooMany line_eq includes_eq hvisits (hreadable readable) (congrArg Nat.succ length_eq)
  | unreadable line_eq includes_eq visits readable length_lt read_eq =>
    have hvisits := visits.earlier_directive hpath line_eq
    rw [← lineAt_descend] at line_eq
    exact .unreadable line_eq includes_eq hvisits (hreadable readable)
      (Nat.succ_lt_succ length_lt) read_eq

end Stops

/-! ## Splicing as a whole -/

theorem lineAt_zero (entry : FileLine) (rest : List FileLine) :
    lineAt host (entry :: rest) [0] = some entry := rfl

theorem visits_earlier_zero (entry : FileLine) (rest : List FileLine) :
    Visits host (entry :: rest) (earlier host (entry :: rest) [0]) [] := by
  have hnone : earlier host (entry :: rest) [0] = ∅ := by
    refine Set.eq_empty_of_forall_notMem fun place hplace ↦ ?_
    obtain ⟨⟨directive, path, hline, -⟩, hlt⟩ := hplace
    have hne : place ≠ [0] := ne_of_lt hlt
    exact absurd hlt (zero_lt_of_ne (ne_nil_of_lineAt hline) hne).not_gt
  rw [hnone]
  exact .empty host _

/-- The two ways in which splicing may end, and what is on record then. -/
inductive Outcome (host : Host) (limit left : ℕ) (report : Report) (entries : List FileLine) :
    Report × Except Failure (List SourceLine) → Prop where
  | complete {visited : List FileLine} {lines : List SourceLine}
      (completes : Completes host left entries visited lines) :
      Outcome host limit left report entries (visited.foldl (announce host) report, .ok lines)
  | stop {announced : List FileLine} {line : Option ℕ} {fault : Fault}
      (stops : Stops host limit left entries announced line fault) :
      Outcome host limit left report entries
        (((announced.foldl (announce host) report).fatal .inclusion line fault.message).1,
          .error (.fatal .inclusion line fault.message))

theorem outcome_plain (hplain : entry.includes? host = none)
    (h : Outcome host limit left report rest (splice host limit left report rest)) :
    Outcome host limit left report (entry :: rest)
      (splice host limit left report (entry :: rest)) := by
  rw [splice_plain hplain]
  generalize splice host limit left report rest = result at h ⊢
  cases h with
  | complete completes => exact .complete (completes.plain hplain)
  | stop stops => exact .stop (stops.plain hplain)

theorem outcome_splice (host : Host) (limit left : ℕ) (report : Report) (entries : List FileLine) :
    Outcome host limit left report entries (splice host limit left report entries) := by
  -- a directive uses up one of `left`, and a plain line shortens the list
  induction left generalizing report entries with
  | zero =>
    induction entries with
    | nil =>
      rw [splice_nil]
      exact .complete (.nil host 0)
    | cons entry rest ih =>
      cases hpath : entry.includes? host with
      | none => exact outcome_plain hpath ih
      | some path =>
        rw [splice_directive hpath]
        exact .stop (.tooMany (lineAt_zero entry rest) hpath (visits_earlier_zero entry rest)
          (List.forall_mem_nil _) rfl)
  | succ left ihleft =>
    induction entries with
    | nil =>
      rw [splice_nil]
      exact .complete (.nil host (left + 1))
    | cons entry rest ih =>
      cases hpath : entry.includes? host with
      | none => exact outcome_plain hpath ih
      | some path =>
        rw [splice_directive hpath]
        cases hread : host.readText path with
        | error fault =>
          exact .stop (.unreadable (lineAt_zero entry rest) hpath (visits_earlier_zero entry rest)
            (List.forall_mem_nil _) (Nat.succ_pos left) hread)
        | ok text =>
          have hbelow := ihleft (announce host report entry) (fileLines path text ++ rest)
          dsimp only
          generalize splice host limit left (announce host report entry)
            (fileLines path text ++ rest) = result at hbelow ⊢
          cases hbelow with
          | complete completes => exact .complete (completes.directive hpath hread)
          | stop stops => exact .stop (stops.directive hpath hread)

/-- The unfolding of a file is finite, all of it can be read, and its directives are within the
limit. -/
structure IsLoadable (host : Host) (limit : ℕ) (path : Text) : Prop where
  start_readable : ∃ text, host.readText path = .ok text
  finite : (directives host (linesOf host path)).Finite
  readable : ∀ place directive included, lineAt host (linesOf host path) place = some directive →
    directive.includes? host = some included → ∃ text, host.readText included = .ok text
  count_le : (directives host (linesOf host path)).ncard ≤ limit

/-- The fault that comes first when a file is loaded. -/
inductive FirstFault (host : Host) (limit : ℕ) (path : Text) :
    List FileLine → Option ℕ → Fault → Prop where
  | start {fault : FileFault} (read_eq : host.readText path = .error fault) :
      FirstFault host limit path [] none (.unreadable path fault)
  | unfolded {text : Text} {announced : List FileLine} {line : Option ℕ} {fault : Fault}
      (read_eq : host.readText path = .ok text)
      (stops : Stops host limit limit (linesOf host path) announced line fault) :
      FirstFault host limit path announced line fault

theorem Completes.isLoadable {visited : List FileLine} {lines : List SourceLine}
    (hread : host.readText path = .ok text)
    (h : Completes host limit (linesOf host path) visited lines) : IsLoadable host limit path where
  start_readable := ⟨text, hread⟩
  finite := h.visits.finite
  readable := by
    intro place directive included hline hincluded
    obtain ⟨found, hfound, hsame⟩ := h.visits.exists_mem ⟨directive, included, hline, hincluded⟩
    obtain ⟨path', text', hpath', htext'⟩ := h.readable found hfound
    obtain rfl : found = directive := Option.some.inj (hsame.symm.trans hline)
    obtain rfl : path' = included := Option.some.inj (hpath'.symm.trans hincluded)
    exact ⟨text', htext'⟩
  count_le := by
    rw [h.visits.ncard_eq]
    exact h.length_le

theorem FirstFault.not_isLoadable {announced : List FileLine} {line : Option ℕ} {fault : Fault}
    (h : FirstFault host limit path announced line fault) : ¬ IsLoadable host limit path := by
  intro hloadable
  cases h with
  | start read_eq =>
    obtain ⟨text, htext⟩ := hloadable.start_readable
    rw [read_eq] at htext
    cases htext
  | unfolded _ stops =>
    cases stops with
    | @tooMany place directive included visited line_eq includes_eq visits _ length_eq =>
      -- the directive at `place` comes on top of those before it
      have hsub : insert place (earlier host (linesOf host path) place) ⊆
          directives host (linesOf host path) :=
        Set.insert_subset ⟨directive, included, line_eq, includes_eq⟩ fun _ hother ↦ hother.1
      have hcount : (insert place (earlier host (linesOf host path) place)).ncard = limit + 1 := by
        rw [Set.ncard_insert_of_notMem (fun hmem ↦ lt_irrefl place hmem.2) visits.finite,
          visits.ncard_eq, length_eq]
      have hle := Set.ncard_le_ncard hsub hloadable.finite
      have hlimit := hloadable.count_le
      omega
    | unreadable line_eq includes_eq _ _ _ read_eq =>
      obtain ⟨text, htext⟩ := hloadable.readable _ _ _ line_eq includes_eq
      rw [read_eq] at htext
      cases htext

/-- Loading a file always ends, and gives its lines with every directive replaced by what it
includes just if this is a finite unfolding of files that can be read, with no more directives than
the limit. Each directive is then announced once, in the order of their places, and no line of the
result is a directive. Otherwise what comes first in this order is the fault: a file that cannot be
read, at the line of its directive, or the first directive beyond the limit, at its own line. -/
theorem loadSource_cases (host : Host) (limit : ℕ) (path : Text) (report : Report) :
    (IsLoadable host limit path ∧ ∃ visited lines,
        loadSource host limit path report = (visited.foldl (announce host) report, .ok lines) ∧
        Visits host (linesOf host path) (directives host (linesOf host path)) visited ∧
        visited.length = (directives host (linesOf host path)).ncard ∧
        Expands host (linesOf host path) lines ∧
        ∀ line ∈ lines, IsNumbered host line ∧ target? line.text = none) ∨
      (¬ IsLoadable host limit path ∧ ∃ announced line fault,
        loadSource host limit path report =
          (((announced.foldl (announce host) report).fatal .inclusion line fault.message).1,
            .error (.fatal .inclusion line fault.message)) ∧
        FirstFault host limit path announced line fault) := by
  unfold loadSource load
  cases hread : host.readText path with
  | error fault =>
    have hfault : FirstFault host limit path [] none (.unreadable path fault) := .start hread
    exact .inr ⟨hfault.not_isLoadable, [], none, _, rfl, hfault⟩
  | ok text =>
    have houtcome := outcome_splice host limit limit report (linesOf host path)
    rw [linesOf_eq hread] at houtcome
    dsimp only
    generalize splice host limit limit report (fileLines path text) = result at houtcome ⊢
    rw [← linesOf_eq hread] at houtcome
    cases houtcome with
    | @complete visited lines completes =>
      refine .inl ⟨completes.isLoadable hread, visited, lines, rfl, completes.visits,
        completes.visits.ncard_eq.symm, completes.expands, completes.expands.isNumbered ?_⟩
      rw [linesOf_eq hread]
      exact fun entry ↦ isNumbered_of_mem_fileLines hread
    | @stop announced line fault stops =>
      have hfault : FirstFault host limit path announced line fault := .unfolded hread stops
      exact .inr ⟨hfault.not_isLoadable, announced, line, fault, rfl, hfault⟩

/-- A file that includes itself ends at the directive beyond the limit. -/
example : (loadSource { read := fun _ ↦ .ok (Bytes.ofText "NOOPC\n'include \"a\"".toList)
                        lookup := fun _ ↦ none } 2 "a".toList (.start none)).2 =
    .error (.fatal .inclusion (some 2) (Fault.tooMany 2).message) := by
  decide +kernel

end Inclusion

end Sequencer
