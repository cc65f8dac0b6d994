import Mathlib
import Sequencer.Proofs.Except
import Sequencer.Proofs.Table

/-!
# Runs of a sweep

A sweep either goes through the whole list or stops at one element. How it ends is proved once, from
how each of its steps can end.
-/

namespace Sequencer

variable {α β σ ε : Type}

variable {step : σ → α → σ × Except ε α} {state : σ}

theorem sweep_cons_ok {next : σ} {x y : α} (h : step state x = (next, .ok y)) (xs : List α) :
    sweep step state (x :: xs) =
      (y :: (sweep step next xs).1, (sweep step next xs).2) := by
  rw [sweep, h]

theorem sweep_cons_error {next : σ} {x : α} {fault : ε} (h : step state x = (next, .error fault))
    (xs : List α) : sweep step state (x :: xs) = (x :: xs, next, .error fault) := by
  rw [sweep, h]

/-- A sweep whose steps leave the state alone changes every element. -/
theorem sweep_of_forall_ok {f : α → α} {xs : List α}
    (h : ∀ x ∈ xs, step state x = (state, .ok (f x))) :
    sweep step state xs = (xs.map f, state, .ok ()) := by
  induction xs with
  | nil => rfl
  | cons x rest ih =>
    rw [List.forall_mem_cons] at h
    rw [sweep_cons_ok h.1, ih h.2]
    rfl

/-- A change of the state that every step passes on is passed on by the sweep. -/
theorem sweep_comm {change : σ → σ}
    (h : ∀ s x, step (change s) x = (change (step s x).1, (step s x).2)) (state : σ)
    (xs : List α) :
    sweep step (change state) xs =
      ((sweep step state xs).1, change (sweep step state xs).2.1, (sweep step state xs).2.2) := by
  induction xs generalizing state with
  | nil => rfl
  | cons x rest ih =>
    have hchange := h state x
    rcases hx : step state x with ⟨next, fault | y⟩
    · rw [hx] at hchange
      rw [sweep_cons_error hchange, sweep_cons_error hx]
    · rw [hx] at hchange
      rw [sweep_cons_ok hchange, sweep_cons_ok hx, ih]

/-- How a sweep ends, from how each step can end. Where a step succeeds, it changes its element in a
way that does not depend on the state, and `Kept` says what it does to the state; the numbers that
the elements stand for add up along the run. -/
theorem sweep_cases (f : α → α) (weight : α → ℕ) (Kept : ℕ → σ → σ → Prop)
    (Halted : σ → σ → ε → Prop) (state : σ) (xs : List α) (hrefl : ∀ s, Kept 0 s s)
    (htrans : ∀ {m n s t u}, Kept m s t → Kept n t u → Kept (m + n) s u)
    (hhalt : ∀ {n s t u fault}, Kept n s t → Halted t u fault → Halted s u fault)
    (hstep : ∀ s, ∀ x ∈ xs, (∃ t, step s x = (t, .ok (f x)) ∧ Kept (weight x) s t) ∨
      ∃ t fault, step s x = (t, .error fault) ∧ Halted s t fault) :
    (∃ t, sweep step state xs = (xs.map f, t, .ok ()) ∧ Kept (xs.map weight).sum state t) ∨
      ∃ ys t fault, sweep step state xs = (ys, t, .error fault) ∧ Halted state t fault := by
  induction xs generalizing state with
  | nil => exact .inl ⟨state, rfl, hrefl state⟩
  | cons x xs ih =>
    obtain ⟨next, hx, hkept⟩ | ⟨next, fault, hx, hhalted⟩ := hstep state x List.mem_cons_self
    · obtain ⟨last, hrest, hkept'⟩ | ⟨ys, last, fault, hrest, hhalted⟩ :=
        ih next fun s y hmem ↦ hstep s y (List.mem_cons_of_mem x hmem)
      · exact .inl ⟨last, by rw [sweep_cons_ok hx, hrest]; rfl, htrans hkept hkept'⟩
      · exact .inr ⟨_, last, fault, by rw [sweep_cons_ok hx, hrest], hhalt hkept hhalted⟩
    · exact .inr ⟨_, next, fault, sweep_cons_error hx xs, hhalted⟩

/-- What the steps do to the state adds up along a sweep that goes through. -/
theorem sweep_adds {weight : α → ℕ} {Adds : ℕ → σ → σ → Prop} (hrefl : ∀ s, Adds 0 s s)
    (htrans : ∀ {m n s t u}, Adds m s t → Adds n t u → Adds (m + n) s u)
    (hstep : ∀ {s x t y}, step s x = (t, .ok y) → Adds (weight x) s t) {xs ys : List α} {last : σ}
    (h : sweep step state xs = (ys, last, .ok ())) : Adds (xs.map weight).sum state last := by
  induction xs generalizing state ys with
  | nil =>
    cases h
    exact hrefl _
  | cons x rest ih =>
    rcases hx : step state x with ⟨next, fault | y⟩
    · rw [sweep_cons_error hx] at h
      cases h
    · rw [sweep_cons_ok hx] at h
      obtain ⟨-, hrest⟩ := Prod.mk.inj h
      exact htrans (hstep hx) (ih (Prod.ext rfl hrest))

theorem sum_map_toNat (p : α → Bool) (xs : List α) :
    (xs.map fun x ↦ (p x).toNat).sum = xs.countP p := by
  induction xs with
  | nil => rfl
  | cons x rest ih =>
    rw [List.map_cons, List.sum_cons, ih, List.countP_cons, Nat.add_comm]
    cases p x <;> rfl

/-- What is known of the state that a computation leaves: `Goes` if it succeeded, `Stops` if it
failed. -/
def Leaves (Goes : σ → Prop) (Stops : σ → ε → Prop) (state : σ) : Except ε β → Prop
  | .ok _ => Goes state
  | .error fault => Stops state fault

section

variable {Goes : σ → Prop} {Stops : σ → ε → Prop}

theorem leaves_map {outcome : Except ε α} {f : α → β} :
    Leaves Goes Stops state (outcome.map f) ↔ Leaves Goes Stops state outcome := by
  cases outcome <;> rfl

theorem leaves_of_eq {run : σ × Except ε β} {outcome : Except ε β} (heq : run = (state, outcome))
    (h : Leaves Goes Stops run.1 run.2) : Leaves Goes Stops state outcome := by
  rw [heq] at h
  exact h

/-- What each step keeps while it succeeds is kept by a sweep, and where the sweep fails, its last
step did. -/
theorem sweep_leaves {xs : List α}
    (hstep : ∀ s, ∀ x ∈ xs, Goes s → Leaves Goes Stops (step s x).1 (step s x).2)
    (h : Goes state) :
    Leaves Goes Stops (sweep step state xs).2.1 (sweep step state xs).2.2 := by
  induction xs generalizing state with
  | nil => exact h
  | cons x rest ih =>
    have hx := hstep state x List.mem_cons_self h
    rcases hresult : step state x with ⟨next, fault | y⟩
    · rw [sweep_cons_error hresult]
      rwa [hresult] at hx
    · rw [sweep_cons_ok hresult]
      rw [hresult] at hx
      exact ih (fun s y hmem ↦ hstep s y (List.mem_cons_of_mem x hmem)) hx

end

namespace Table

/-- A step of a sweep over a table, as a step on its entries. -/
def entryStep (step : σ → Text → α → σ × Except ε α) (state : σ) (entry : Text × α) :
    σ × Except ε (Text × α) :=
  ((step state entry.1 entry.2).1,
    (step state entry.1 entry.2).2.map fun value ↦ (entry.1, value))

theorem entries_sweep (table : Table α) (step : σ → Text → α → σ × Except ε α) (state : σ) :
    (table.sweep step state).1.entries =
      (Sequencer.sweep (entryStep step) state table.entries).1 := rfl

theorem snd_sweep (table : Table α) (step : σ → Text → α → σ × Except ε α) (state : σ) :
    (table.sweep step state).2 = (Sequencer.sweep (entryStep step) state table.entries).2 := rfl

/-- A sweep over a table whose steps leave the state alone changes every value. -/
theorem sweep_of_forall_ok {step : σ → Text → α → σ × Except ε α} {f : Text → α → α}
    {table : Table α} {state : σ} (h : ∀ name value, table.get? name = some value →
      step state name value = (state, .ok (f name value))) :
    table.sweep step state = (table.mapWithKey f, state, .ok ()) := by
  have hsweep : Sequencer.sweep (entryStep step) state table.entries =
      (table.entries.map fun entry ↦ (entry.1, f entry.1 entry.2), state, .ok ()) := by
    refine Sequencer.sweep_of_forall_ok fun entry hmem ↦ ?_
    rw [entryStep, h _ _ (get?_of_mem hmem)]
    rfl
  refine Prod.ext (ext_entries ?_) ?_
  · rw [entries_sweep, hsweep]
    rfl
  · rw [snd_sweep, hsweep]

theorem sweep_comm {step : σ → Text → α → σ × Except ε α} {change : σ → σ}
    (h : ∀ s name value,
      step (change s) name value = (change (step s name value).1, (step s name value).2))
    (table : Table α) (state : σ) :
    table.sweep step (change state) = ((table.sweep step state).1,
      change (table.sweep step state).2.1, (table.sweep step state).2.2) := by
  have hsweep : Sequencer.sweep (entryStep step) (change state) table.entries = _ :=
    Sequencer.sweep_comm (fun s entry ↦ by simp only [entryStep, h]) state table.entries
  refine Prod.ext (ext_entries ?_) ?_
  · rw [entries_sweep, hsweep]
    rfl
  · rw [snd_sweep, hsweep]
    rfl

/-- How a sweep over a table ends, from how each step can end. -/
theorem sweep_cases {step : σ → Text → α → σ × Except ε α} (f : Text → α → α)
    (Kept : σ → σ → Prop) (Halted : σ → σ → ε → Prop) (table : Table α) (state : σ)
    (hrefl : ∀ s, Kept s s)
    (htrans : ∀ {s t u}, Kept s t → Kept t u → Kept s u)
    (hhalt : ∀ {s t u fault}, Kept s t → Halted t u fault → Halted s u fault)
    (hstep : ∀ s name value, (∃ t, step s name value = (t, .ok (f name value)) ∧ Kept s t) ∨
      ∃ t fault, step s name value = (t, .error fault) ∧ Halted s t fault) :
    (∃ t, table.sweep step state = (table.mapWithKey f, t, .ok ()) ∧ Kept state t) ∨
      ∃ swept t fault, table.sweep step state = (swept, t, .error fault) ∧
        Halted state t fault := by
  have hentry (s : σ) (entry : Text × α) :
      (∃ t, entryStep step s entry = (t, .ok (entry.1, f entry.1 entry.2)) ∧ Kept s t) ∨
        ∃ t fault, entryStep step s entry = (t, .error fault) ∧ Halted s t fault := by
    obtain ⟨t, ht, hkept⟩ | ⟨t, fault, ht, hhalted⟩ := hstep s entry.1 entry.2
    · exact .inl ⟨t, by rw [entryStep, ht]; rfl, hkept⟩
    · exact .inr ⟨t, fault, by rw [entryStep, ht]; rfl, hhalted⟩
  have hsweep := Sequencer.sweep_cases (fun entry ↦ (entry.1, f entry.1 entry.2)) (fun _ ↦ 0)
    (fun _ ↦ Kept) Halted state table.entries hrefl htrans hhalt fun s entry _ ↦ hentry s entry
  obtain ⟨t, hrun, hkept⟩ | ⟨ys, t, fault, hrun, hhalted⟩ := hsweep
  · refine .inl ⟨t, Prod.ext (ext_entries ?_) ?_, hkept⟩
    · rw [entries_sweep, hrun]
      rfl
    · rw [snd_sweep, hrun]
  · exact .inr ⟨_, t, fault, Prod.ext rfl (by rw [snd_sweep, hrun]), hhalted⟩

theorem sweep_adds {step : σ → Text → α → σ × Except ε α} {weight : Text × α → ℕ}
    {Adds : ℕ → σ → σ → Prop} (hrefl : ∀ s, Adds 0 s s)
    (htrans : ∀ {m n s t u}, Adds m s t → Adds n t u → Adds (m + n) s u)
    (hstep : ∀ {s name value t changed}, step s name value = (t, .ok changed) →
      Adds (weight (name, value)) s t) {table swept : Table α} {state last : σ}
    (h : table.sweep step state = (swept, last, .ok ())) :
    Adds (table.entries.map weight).sum state last := by
  have hsweep : Sequencer.sweep (entryStep step) state table.entries =
      ((Sequencer.sweep (entryStep step) state table.entries).1, last, .ok ()) :=
    Prod.ext rfl (by rw [← snd_sweep, h])
  refine Sequencer.sweep_adds hrefl htrans (fun {s entry t changed} hentry ↦ ?_) hsweep
  obtain ⟨hstate, houtcome⟩ := Prod.mk.inj hentry
  obtain ⟨value, hvalue, -⟩ := Except.map_eq_ok_iff.1 houtcome
  exact hstep (Prod.ext hstate hvalue)

theorem sweep_leaves {Goes : σ → Prop} {Stops : σ → ε → Prop}
    {step : σ → Text → α → σ × Except ε α} {table : Table α} {state : σ}
    (hstep : ∀ s name value, Goes s →
      Leaves Goes Stops (step s name value).1 (step s name value).2) (h : Goes state) :
    Leaves Goes Stops (table.sweep step state).2.1 (table.sweep step state).2.2 := by
  rw [snd_sweep]
  refine Sequencer.sweep_leaves (fun s entry _ hgoes ↦ ?_) h
  exact leaves_map.2 (hstep s entry.1 entry.2 hgoes)

end Table

end Sequencer
