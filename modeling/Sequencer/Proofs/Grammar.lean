import Mathlib
import Sequencer.Expression.Value
import Sequencer.Proofs.Except

/-!
# The grammar of expressions

The rules of the grammar relate tokens to the trees they stand for. The machine that takes tokens
from left to right computes, in any arithmetic, what folding the tree gives. It succeeds on no other
tokens. Since trees are themselves an arithmetic that never fails, tokens have at most one tree.
-/

namespace Sequencer.Expression

/-! ## Trees and rules -/

/-- An expression without its parentheses and plus signs, which change no value. -/
inductive Tree where
  | number (n : ℕ)
  | name (text : Text)
  | negate (tree : Tree)
  | sum (operator : SumOperator) (left right : Tree)
  | product (operator : ProductOperator) (left right : Tree)
deriving DecidableEq, Repr

def SumOperator.token : SumOperator → Token
  | plus => .plus
  | minus => .minus

def ProductOperator.token : ProductOperator → Token
  | times => .times
  | divide => .divide

inductive Level where
  | sum
  | product
  | signed
  | atom
deriving DecidableEq, Repr

/-- The tokens of each level and their trees. Sums and products associate to the left. -/
inductive Derives : Level → List Token → Tree → Prop where
  | term {ts : List Token} {tree : Tree} : Derives .product ts tree → Derives .sum ts tree
  | sum (operator : SumOperator) {ls rs : List Token} {left right : Tree} :
    Derives .sum ls left → Derives .product rs right →
      Derives .sum (ls ++ operator.token :: rs) (.sum operator left right)
  | factor {ts : List Token} {tree : Tree} : Derives .signed ts tree → Derives .product ts tree
  | product (operator : ProductOperator) {ls rs : List Token} {left right : Tree} :
    Derives .product ls left → Derives .signed rs right →
      Derives .product (ls ++ operator.token :: rs) (.product operator left right)
  | minus {ts : List Token} {tree : Tree} :
    Derives .signed ts tree → Derives .signed (.minus :: ts) (.negate tree)
  | plus {ts : List Token} {tree : Tree} :
    Derives .signed ts tree → Derives .signed (.plus :: ts) tree
  | atom {ts : List Token} {tree : Tree} : Derives .atom ts tree → Derives .signed ts tree
  | number (n : ℕ) : Derives .atom [.number n] (.number n)
  | name (text : Text) : Derives .atom [.name text] (.name text)
  | parentheses {ts : List Token} {tree : Tree} :
    Derives .sum ts tree → Derives .atom (.opening :: (ts ++ [.closing])) tree

section Machine

variable {α : Type} (arithmetic : Arithmetic α)

/-- What a tree gives in an arithmetic, operands before operators and from left to right. -/
def Tree.fold : Tree → Except ExpressionFault α
  | number n => arithmetic.number n
  | name text => arithmetic.name text
  | negate tree => do arithmetic.negate (← tree.fold)
  | sum operator left right => do arithmetic.sum operator (← left.fold) (← right.fold)
  | product operator left right => do arithmetic.product operator (← left.fold) (← right.fold)

/-! ## The machine on derivable tokens -/

/-- How the machine takes the tokens of a level. An atom or a signed operand goes to what is
pending, and a product becomes the product of the state. After a sum, whatever starts with the total
goes on from the value of the sum. -/
def Runs (ts : List Token) (tree : Tree) : Level → Prop
  | .atom | .signed => ∀ pending outer,
    ts.foldlM (State.step arithmetic) (.operand pending outer) =
      tree.fold arithmetic >>= pending.accept arithmetic outer
  | .product => ∀ sum outer,
    ts.foldlM (State.step arithmetic) (.operand { sum } outer) =
      tree.fold arithmetic >>= fun product ↦ .ok (.operator sum product outer)
  | .sum => ∀ {β : Type} outer (next : State α → Except ExpressionFault β)
      (rest : α → Except ExpressionFault β),
    (∀ sum product, next (.operator sum product outer) = total arithmetic sum product >>= rest) →
      ts.foldlM (State.step arithmetic) (.operand {} outer) >>= next = tree.fold arithmetic >>= rest

variable {arithmetic} {sum : Option (α × SumOperator)} {product value : α}
  {outer : List (Pending α)}

theorem step_sumOperator (operator : SumOperator) :
    State.step arithmetic (.operator sum product outer) operator.token =
      total arithmetic sum product >>= fun value ↦
        .ok (.operand { sum := some (value, operator) } outer) := by
  cases operator <;> rfl

theorem step_productOperator (operator : ProductOperator) :
    State.step arithmetic (.operator sum product outer) operator.token =
      .ok (.operand { sum, product := some (product, operator) } outer) := by
  cases operator <;> rfl

theorem accept_product {left : α} {operator : ProductOperator} :
    Pending.accept arithmetic { sum, product := some (left, operator) } outer = fun value ↦
      arithmetic.product operator left value >>= fun product ↦
        .ok (.operator sum product outer) := rfl

theorem accept_negations_succ {pending : Pending α} :
    Pending.accept arithmetic { pending with negations := pending.negations + 1 } outer =
      fun value ↦ arithmetic.negate value >>= pending.accept arithmetic outer := by
  funext value
  unfold Pending.accept
  rw [negate, bind_assoc]

/-- The machine takes the tokens of a derivation as their tree says, whatever the arithmetic and
whichever operation of it fails first. -/
theorem runs_of_derives {level : Level} {ts : List Token} {tree : Tree}
    (h : Derives level ts tree) : Runs arithmetic ts tree level := by
  induction h with
  | term _ ih =>
    intro β outer next rest hnext
    rw [ih none outer, bind_assoc]
    simp only [Except.ok_bind, hnext, total]
  | sum operator _ _ ihl ihr =>
    intro β outer next rest hnext
    simp only [Runs] at ihr
    rw [List.foldlM_append, bind_assoc]
    simp only [List.foldlM_cons]
    rw [ihl outer _ _ fun sum product ↦ by rw [step_sumOperator, bind_assoc, bind_assoc]]
    simp only [Except.ok_bind, ihr, bind_assoc, hnext, total, Tree.fold]
  | factor _ ih => exact fun sum outer ↦ ih { sum } outer
  | product operator _ _ ihl ihr =>
    intro sum outer
    simp only [Runs] at ihr
    rw [List.foldlM_append, ihl, bind_assoc]
    simp only [Except.ok_bind, List.foldlM_cons, step_productOperator, ihr, accept_product,
      Tree.fold, bind_assoc]
  | minus _ ih =>
    intro pending outer
    simp only [Runs] at ih
    simp only [List.foldlM_cons, State.step, Except.ok_bind, ih, Tree.fold, bind_assoc,
      accept_negations_succ]
  | plus _ ih =>
    intro pending outer
    rw [List.foldlM_cons]
    exact ih pending outer
  | atom _ ih => exact ih
  | number n =>
    intro pending outer
    simp [State.step, Tree.fold]
  | name text =>
    intro pending outer
    simp [State.step, Tree.fold]
  | parentheses _ ih =>
    intro pending outer
    simp only [List.foldlM_cons, List.foldlM_append, List.foldlM_nil, bind_pure, State.step,
      Except.ok_bind]
    exact ih (pending :: outer) _ _ fun sum product ↦ rfl

/-- Derivable tokens have the value of their tree, and fail as it does. -/
theorem value_of_derives {ts : List Token} {tree : Tree} (h : Derives .sum ts tree) :
    Expression.value arithmetic ts = tree.fold arithmetic := by
  have hruns : Runs arithmetic ts tree .sum := runs_of_derives h
  calc
    Expression.value arithmetic ts = tree.fold arithmetic >>= pure :=
      hruns [] (State.finish arithmetic) pure fun sum product ↦ rfl
    _ = tree.fold arithmetic := bind_pure _

/-! ## What a state has read -/

/-- Tokens read so far that make up the left operand of a sum, with its operator. -/
inductive ReadsSum (arithmetic : Arithmetic α) : Option (α × SumOperator) → List Token → Prop where
  | none : ReadsSum arithmetic none []
  | some {ts : List Token} {tree : Tree} {value : α} (operator : SumOperator) :
    Derives .sum ts tree → tree.fold arithmetic = .ok value →
      ReadsSum arithmetic (some (value, operator)) (ts ++ [operator.token])

inductive ReadsProduct (arithmetic : Arithmetic α) :
    Option (α × ProductOperator) → List Token → Prop where
  | none : ReadsProduct arithmetic none []
  | some {ts : List Token} {tree : Tree} {value : α} (operator : ProductOperator) :
    Derives .product ts tree → tree.fold arithmetic = .ok value →
      ReadsProduct arithmetic (some (value, operator)) (ts ++ [operator.token])

/-- Signs that come to a number of negations. -/
inductive ReadsSigns : ℕ → List Token → Prop where
  | nil : ReadsSigns 0 []
  | minus {n : ℕ} {ts : List Token} : ReadsSigns n ts → ReadsSigns (n + 1) (ts ++ [.minus])
  | plus {n : ℕ} {ts : List Token} : ReadsSigns n ts → ReadsSigns n (ts ++ [.plus])

inductive ReadsPending (arithmetic : Arithmetic α) : Pending α → List Token → Prop where
  | intro {pending : Pending α} {ss ps gs : List Token} :
    ReadsSum arithmetic pending.sum ss → ReadsProduct arithmetic pending.product ps →
      ReadsSigns pending.negations gs → ReadsPending arithmetic pending (ss ++ (ps ++ gs))

/-- What stands before the parentheses that are still open. -/
inductive ReadsOuter (arithmetic : Arithmetic α) : List (Pending α) → List Token → Prop where
  | nil : ReadsOuter arithmetic [] []
  | cons {pending : Pending α} {outer : List (Pending α)} {os ts : List Token} :
    ReadsOuter arithmetic outer os → ReadsPending arithmetic pending ts →
      ReadsOuter arithmetic (pending :: outer) (os ++ (ts ++ [.opening]))

/-- The tokens that led the machine to a state, as the parts of a derivation whose values the state
holds. -/
inductive ReadsState (arithmetic : Arithmetic α) : State α → List Token → Prop where
  | operand {pending : Pending α} {outer : List (Pending α)} {os ts : List Token} :
    ReadsOuter arithmetic outer os → ReadsPending arithmetic pending ts →
      ReadsState arithmetic (.operand pending outer) (os ++ ts)
  | operator {sum : Option (α × SumOperator)} {product : α} {outer : List (Pending α)} {tree : Tree}
    {os ss ts : List Token} :
    ReadsOuter arithmetic outer os → ReadsSum arithmetic sum ss → Derives .product ts tree →
      tree.fold arithmetic = .ok product →
      ReadsState arithmetic (.operator sum product outer) (os ++ (ss ++ ts))

variable {ts : List Token} {tree : Tree}

theorem readsPending_nil : ReadsPending arithmetic {} [] :=
  @ReadsPending.intro _ _ {} _ _ _ .none .none .nil

/-- Signs before a signed operand make a signed operand. -/
theorem exists_signed {n : ℕ} {gs : List Token} (hsigns : ReadsSigns n gs)
    (h : Derives .signed ts tree) :
    ∃ signed, Derives .signed (gs ++ ts) signed ∧
      signed.fold arithmetic = tree.fold arithmetic >>= negate arithmetic n := by
  induction hsigns generalizing ts tree with
  | nil => exact ⟨tree, h, (bind_pure _).symm⟩
  | minus _ ih =>
    obtain ⟨signed, hsigned, hfold⟩ := ih h.minus
    refine ⟨signed, by simpa using hsigned, ?_⟩
    rw [hfold, Tree.fold, bind_assoc]
    rfl
  | plus _ ih =>
    obtain ⟨signed, hsigned, hfold⟩ := ih h.plus
    exact ⟨signed, by simpa using hsigned, hfold⟩

theorem exists_product {left : Option (α × ProductOperator)} {ps : List Token} {result : α}
    (hproduct : ReadsProduct arithmetic left ps) (h : Derives .signed ts tree)
    (hfold : tree.fold arithmetic = .ok value)
    (hresult : scaled arithmetic left value = .ok result) :
    ∃ whole, Derives .product (ps ++ ts) whole ∧ whole.fold arithmetic = .ok result := by
  cases hproduct with
  | none => exact ⟨tree, h.factor, hfold.trans hresult⟩
  | some operator hleft hleftFold =>
    refine ⟨_, by simpa using hleft.product operator h, ?_⟩
    rw [Tree.fold, hleftFold, hfold]
    exact hresult

theorem exists_sum {ss : List Token} (hsum : ReadsSum arithmetic sum ss)
    (h : Derives .product ts tree) (hfold : tree.fold arithmetic = .ok product)
    (htotal : total arithmetic sum product = .ok value) :
    ∃ whole, Derives .sum (ss ++ ts) whole ∧ whole.fold arithmetic = .ok value := by
  cases hsum with
  | none => exact ⟨tree, h.term, hfold.trans htotal⟩
  | some operator hleft hleftFold =>
    refine ⟨_, by simpa using hleft.sum operator h, ?_⟩
    rw [Tree.fold, hleftFold, hfold]
    exact htotal

/-- An operand completes the signs and the product that wait for it. -/
theorem readsState_accept {pending : Pending α} {os ps : List Token} {next : State α}
    (houter : ReadsOuter arithmetic outer os) (hpending : ReadsPending arithmetic pending ps)
    (h : Derives .atom ts tree) (hfold : tree.fold arithmetic = .ok value)
    (hnext : pending.accept arithmetic outer value = .ok next) :
    ReadsState arithmetic next (os ++ (ps ++ ts)) := by
  obtain ⟨hsum, hproduct, hsigns⟩ := hpending
  obtain ⟨negated, hnegated, hrest⟩ := Except.bind_eq_ok_iff.1 hnext
  obtain ⟨result, hresult, hoperator⟩ := Except.bind_eq_ok_iff.1 hrest
  obtain rfl := Except.ok.inj hoperator
  obtain ⟨signed, hsigned, hsignedFold⟩ := @exists_signed _ arithmetic _ _ _ _ hsigns h.atom
  rw [hfold, Except.ok_bind, hnegated] at hsignedFold
  obtain ⟨whole, hwhole, hwholeFold⟩ := exists_product hproduct hsigned hsignedFold hresult
  have hstate := ReadsState.operator houter hsum hwhole hwholeFold
  simpa using hstate

theorem ReadsPending.minus {pending : Pending α} {ps : List Token}
    (h : ReadsPending arithmetic pending ps) :
    ReadsPending arithmetic { pending with negations := pending.negations + 1 }
      (ps ++ [.minus]) := by
  obtain ⟨hsum, hproduct, hsigns⟩ := h
  simp only [List.append_assoc]
  exact @ReadsPending.intro _ _ { pending with negations := pending.negations + 1 } _ _ _ hsum
    hproduct hsigns.minus

theorem ReadsPending.plus {pending : Pending α} {ps : List Token}
    (h : ReadsPending arithmetic pending ps) : ReadsPending arithmetic pending (ps ++ [.plus]) := by
  obtain ⟨hsum, hproduct, hsigns⟩ := h
  simp only [List.append_assoc]
  exact .intro hsum hproduct hsigns.plus

theorem readsPending_productOperator {ss : List Token} (hsum : ReadsSum arithmetic sum ss)
    (h : Derives .product ts tree) (hfold : tree.fold arithmetic = .ok product)
    (operator : ProductOperator) :
    ReadsPending arithmetic { sum, product := some (product, operator) }
      (ss ++ (ts ++ [operator.token])) := by
  have hpending := @ReadsPending.intro _ _ { sum, product := some (product, operator) } _ _ _ hsum
    (.some operator h hfold) .nil
  rwa [List.append_nil] at hpending

theorem readsPending_sumOperator {ss : List Token} (hsum : ReadsSum arithmetic sum ss)
    (h : Derives .product ts tree) (hfold : tree.fold arithmetic = .ok product)
    (htotal : total arithmetic sum product = .ok value) (operator : SumOperator) :
    ReadsPending arithmetic { sum := some (value, operator) } (ss ++ (ts ++ [operator.token])) := by
  obtain ⟨whole, hwhole, hwholeFold⟩ := exists_sum hsum h hfold htotal
  have hpending := @ReadsPending.intro _ _ { sum := some (value, operator) } _ _ _
    (.some operator hwhole hwholeFold) .none .nil
  simpa using hpending

/-- One more token keeps a state and what it has read together. -/
theorem readsState_step {state next : State α} {token : Token} (h : ReadsState arithmetic state ts)
    (hstep : state.step arithmetic token = .ok next) :
    ReadsState arithmetic next (ts ++ [token]) := by
  cases h with
  | operand houter hpending =>
    rw [List.append_assoc]
    cases token with
    | number n =>
      obtain ⟨value, hvalue, hnext⟩ := Except.bind_eq_ok_iff.1 hstep
      exact readsState_accept houter hpending (.number n) hvalue hnext
    | name text =>
      obtain ⟨value, hvalue, hnext⟩ := Except.bind_eq_ok_iff.1 hstep
      exact readsState_accept houter hpending (.name text) hvalue hnext
    | minus =>
      obtain rfl := Except.ok.inj hstep
      exact .operand houter hpending.minus
    | plus =>
      obtain rfl := Except.ok.inj hstep
      exact .operand houter hpending.plus
    | opening =>
      obtain rfl := Except.ok.inj hstep
      have hstate := ReadsState.operand (houter.cons hpending) readsPending_nil
      rwa [List.append_nil] at hstate
    | times => cases hstep
    | divide => cases hstep
    | closing => cases hstep
  | operator houter hsum hproduct hfold =>
    rw [List.append_assoc, List.append_assoc]
    cases token with
    | times =>
      obtain rfl := Except.ok.inj hstep
      exact .operand houter (readsPending_productOperator hsum hproduct hfold .times)
    | divide =>
      obtain rfl := Except.ok.inj hstep
      exact .operand houter (readsPending_productOperator hsum hproduct hfold .divide)
    | plus =>
      obtain ⟨value, htotal, hnext⟩ := Except.bind_eq_ok_iff.1 hstep
      obtain rfl := Except.ok.inj hnext
      exact .operand houter (readsPending_sumOperator hsum hproduct hfold htotal .plus)
    | minus =>
      obtain ⟨value, htotal, hnext⟩ := Except.bind_eq_ok_iff.1 hstep
      obtain rfl := Except.ok.inj hnext
      exact .operand houter (readsPending_sumOperator hsum hproduct hfold htotal .minus)
    | closing =>
      obtain ⟨value, htotal, hnext⟩ := Except.bind_eq_ok_iff.1 hstep
      obtain ⟨whole, hwhole, hwholeFold⟩ := exists_sum hsum hproduct hfold htotal
      cases houter with
      | nil => cases hnext
      | cons houter hpending =>
        have hstate := readsState_accept houter hpending hwhole.parentheses hwholeFold hnext
        simpa using hstate
    | number n =>
      obtain ⟨value, -, hnext⟩ := Except.bind_eq_ok_iff.1 hstep
      cases hnext
    | name text =>
      obtain ⟨value, -, hnext⟩ := Except.bind_eq_ok_iff.1 hstep
      cases hnext
    | opening =>
      obtain ⟨value, -, hnext⟩ := Except.bind_eq_ok_iff.1 hstep
      cases hnext

theorem readsState_foldlM {state next : State α} {before : List Token}
    (h : ReadsState arithmetic state before)
    (hrun : ts.foldlM (State.step arithmetic) state = .ok next) :
    ReadsState arithmetic next (before ++ ts) := by
  induction ts generalizing state before with
  | nil =>
    obtain rfl := Except.ok.inj hrun
    rwa [List.append_nil]
  | cons token rest ih =>
    rw [List.foldlM_cons] at hrun
    obtain ⟨between, hstep, hrest⟩ := Except.bind_eq_ok_iff.1 hrun
    have hstate := ih (readsState_step h hstep) hrest
    rwa [List.append_assoc] at hstate

/-- Tokens that have a value are derivable, and it is that of their tree. -/
theorem exists_derives_of_value (h : Expression.value arithmetic ts = .ok value) :
    ∃ tree, Derives .sum ts tree ∧ tree.fold arithmetic = .ok value := by
  obtain ⟨state, hrun, hfinish⟩ := Except.bind_eq_ok_iff.1 h
  have hstate := readsState_foldlM (.operand .nil readsPending_nil) hrun
  rw [List.append_nil, List.nil_append] at hstate
  cases hstate with
  | operand => cases hfinish
  | operator houter hsum hproduct hfold =>
    obtain ⟨total, htotal, hvalue⟩ := Except.bind_eq_ok_iff.1 hfinish
    cases houter with
    | nil =>
      obtain rfl := Except.ok.inj hvalue
      rw [List.nil_append]
      exact exists_sum hsum hproduct hfold htotal
    | cons => cases hvalue

theorem value_eq_ok_iff :
    Expression.value arithmetic ts = .ok value ↔
      ∃ tree, Derives .sum ts tree ∧ tree.fold arithmetic = .ok value := by
  constructor
  · exact exists_derives_of_value
  · rintro ⟨tree, hderives, hfold⟩
    rw [value_of_derives hderives, hfold]

end Machine

/-! ## Trees as values -/

namespace Tree

/-- The arithmetic in which every expression stands for its tree. -/
def arithmetic : Arithmetic Tree where
  number n := .ok (number n)
  name text := .ok (name text)
  negate tree := .ok (negate tree)
  sum operator left right := .ok (sum operator left right)
  product operator left right := .ok (product operator left right)

theorem fold_arithmetic (tree : Tree) : tree.fold arithmetic = .ok tree := by
  induction tree with
  | number n => rfl
  | name text => rfl
  | negate tree ih => rw [fold, ih]; rfl
  | sum operator left right ihl ihr => rw [fold, ihl, ihr]; rfl
  | product operator left right ihl ihr => rw [fold, ihl, ihr]; rfl

end Tree

/-- Tokens have at most one tree. -/
theorem Derives.unique {ts : List Token} {tree tree' : Tree} (h : Derives .sum ts tree)
    (h' : Derives .sum ts tree') : tree = tree' := by
  have hvalue : value Tree.arithmetic ts = .ok tree := by
    rw [value_of_derives h, Tree.fold_arithmetic]
  rw [value_of_derives h', Tree.fold_arithmetic] at hvalue
  exact (Except.ok.inj hvalue).symm

end Sequencer.Expression
