/-!
# Sweeps

A sweep changes the elements of a list from front to back and carries a state along. When a step
fails, the element it failed on and all that follow stay as they were.
-/

namespace Sequencer

variable {α σ ε : Type}

def sweep (step : σ → α → σ × Except ε α) : σ → List α → List α × σ × Except ε Unit
  | state, [] => ([], state, .ok ())
  | state, x :: rest =>
    match step state x with
    | (state, .error fault) => (x :: rest, state, .error fault)
    | (state, .ok y) =>
      let (swept, state, outcome) := sweep step state rest
      (y :: swept, state, outcome)

theorem map_sweep {β : Type} {step : σ → α → σ × Except ε α} {f : α → β}
    (keeps : ∀ state x y, (step state x).2 = .ok y → f y = f x) (state : σ) (xs : List α) :
    (sweep step state xs).1.map f = xs.map f := by
  induction xs generalizing state with
  | nil => rfl
  | cons x rest ih =>
    simp only [sweep]
    split
    · rfl
    · rename_i next y h
      simp [ih next, keeps state x y (by rw [h])]

end Sequencer
