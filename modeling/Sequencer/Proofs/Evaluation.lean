import Mathlib
import Sequencer.Proofs.Grammar
import Sequencer.Proofs.Lexing

/-!
# Evaluation is exact

An expression has a value just when it parses and each part of it, literals included, has a value
over the unbounded integers that lies within 64 bits. Its value is then the exact one. Everything
else is a fault, so no value ever wraps around.
-/

namespace Sequencer.Expression

/-- Integers without bounds, division going toward zero. Only names that are not known and divisions
by zero have no value. -/
def unbounded (lookup : Text → Option ℤ) : Arithmetic ℤ where
  number n := .ok n
  name text :=
    match lookup text with
    | some value => .ok value
    | none => .error (.unknownConstant text)
  negate a := .ok (-a)
  sum
    | .plus, a, b => .ok (a + b)
    | .minus, a, b => .ok (a - b)
  product
    | .times, a, b => .ok (a * b)
    | .divide, a, b => if b = 0 then .error .divideByZero else .ok (a.tdiv b)

def InRange (value : ℤ) : Prop := minValue ≤ value ∧ value ≤ maxValue

namespace Tree

/-- A tree and all the trees within it. -/
def nodes : Tree → List Tree
  | number n => [number n]
  | name text => [name text]
  | negate tree => negate tree :: tree.nodes
  | sum operator left right => sum operator left right :: (left.nodes ++ right.nodes)
  | product operator left right => product operator left right :: (left.nodes ++ right.nodes)

/-- Every part of a tree has an exact value, which is within range. -/
def Fits (lookup : Text → Option ℤ) (tree : Tree) : Prop :=
  ∀ node ∈ tree.nodes, ∃ value, node.fold (unbounded lookup) = .ok value ∧ InRange value

end Tree

/-- A text falls into tokens that a tree can be derived for. -/
def Parses (source : Text) (tree : Tree) : Prop :=
  ∃ tokens, Lexes source tokens ∧ Derives .sum tokens tree

/-! ## Checked operations -/

variable {lookup : Text → Option ℤ} {value : ℤ}

theorem checked_eq_ok_iff {a : ℤ} : checked a = .ok value ↔ a = value ∧ InRange value := by
  unfold checked InRange
  split
  · next hrange =>
    rw [Except.ok.injEq, iff_self_and]
    rintro rfl
    exact hrange
  · next hrange =>
    refine iff_of_false (by simp) ?_
    rintro ⟨rfl, hin⟩
    exact hrange hin

theorem negate_eq_ok_iff (a : ℤ) :
    (integers lookup).negate a = .ok value ↔
      (unbounded lookup).negate a = .ok value ∧ InRange value := by
  simp [integers, unbounded, checked_eq_ok_iff]

theorem sum_eq_ok_iff (operator : SumOperator) (a b : ℤ) :
    (integers lookup).sum operator a b = .ok value ↔
      (unbounded lookup).sum operator a b = .ok value ∧ InRange value := by
  cases operator <;> simp [integers, unbounded, SumOperator.apply, checked_eq_ok_iff]

theorem product_eq_ok_iff (operator : ProductOperator) (a b : ℤ) :
    (integers lookup).product operator a b = .ok value ↔
      (unbounded lookup).product operator a b = .ok value ∧ InRange value := by
  cases operator with
  | times => simp [integers, unbounded, ProductOperator.apply, checked_eq_ok_iff]
  | divide =>
    by_cases hb : b = 0
    · simp [integers, unbounded, ProductOperator.apply, hb]
    · simp [integers, unbounded, ProductOperator.apply, hb, checked_eq_ok_iff]

/-! ## Trees -/

namespace Tree

/-- Having a value within range and being of a value says that the value is within range. -/
theorem exists_inRange_and_iff {x : Except ExpressionFault ℤ} {P : Prop} :
    ((∃ value, x = .ok value ∧ InRange value) ∧ P) ∧ x = .ok value ↔
      P ∧ x = .ok value ∧ InRange value := by
  constructor
  · rintro ⟨⟨⟨other, hother, hrange⟩, hP⟩, hvalue⟩
    obtain rfl := Except.ok.inj (hother.symm.trans hvalue)
    exact ⟨hP, hother, hrange⟩
  · rintro ⟨hP, hvalue, hrange⟩
    exact ⟨⟨⟨value, hvalue, hrange⟩, hP⟩, hvalue⟩

/-- A checked operation on checked operands is the exact operation on exact operands, with its
result within range. -/
theorem bind₂_eq_ok_iff {x y x' y' : Except ExpressionFault ℤ} {P Q : Prop}
    {f g : ℤ → ℤ → Except ExpressionFault ℤ} (hx : ∀ a, x = .ok a ↔ P ∧ x' = .ok a)
    (hy : ∀ b, y = .ok b ↔ Q ∧ y' = .ok b)
    (hf : ∀ a b, f a b = .ok value ↔ g a b = .ok value ∧ InRange value) :
    (do f (← x) (← y)) = .ok value ↔
      (P ∧ Q) ∧ (do g (← x') (← y')) = .ok value ∧ InRange value := by
  simp only [Except.bind_eq_ok_iff, hx, hy, hf]
  constructor
  · rintro ⟨a, ⟨hP, ha⟩, b, ⟨hQ, hb⟩, hvalue, hrange⟩
    exact ⟨⟨hP, hQ⟩, ⟨a, ha, b, hb, hvalue⟩, hrange⟩
  · rintro ⟨⟨hP, hQ⟩, ⟨a, ha, b, hb, hvalue⟩, hrange⟩
    exact ⟨a, ⟨hP, ha⟩, b, ⟨hQ, hb⟩, hvalue, hrange⟩

theorem fits_negate_iff {tree : Tree} :
    (negate tree).Fits lookup ↔
      (∃ value, (negate tree).fold (unbounded lookup) = .ok value ∧ InRange value) ∧
        tree.Fits lookup := by
  simp [Fits, nodes]

theorem fits_sum_iff {operator : SumOperator} {left right : Tree} :
    (sum operator left right).Fits lookup ↔
      (∃ value, (sum operator left right).fold (unbounded lookup) = .ok value ∧ InRange value) ∧
        left.Fits lookup ∧ right.Fits lookup := by
  simp [Fits, nodes, or_imp, forall_and]

theorem fits_product_iff {operator : ProductOperator} {left right : Tree} :
    (product operator left right).Fits lookup ↔
      (∃ value, (product operator left right).fold (unbounded lookup) = .ok value ∧
        InRange value) ∧ left.Fits lookup ∧ right.Fits lookup := by
  simp [Fits, nodes, or_imp, forall_and]

/-- Folding with checks gives the exact value of a tree all of whose parts are within range, and no
value otherwise. Literals and names are not checked again, so they have to be within range. -/
theorem fold_integers_eq_ok_iff {tree : Tree}
    (hnumbers : ∀ n, number n ∈ tree.nodes → InRange n)
    (hnames : ∀ text value, lookup text = some value → InRange value) :
    tree.fold (integers lookup) = .ok value ↔
      tree.Fits lookup ∧ tree.fold (unbounded lookup) = .ok value := by
  induction tree generalizing value with
  | number n =>
    have hn := hnumbers n (by simp [nodes])
    simp [Fits, nodes, fold, unbounded, integers, hn]
  | name text =>
    cases htext : lookup text with
    | none => simp [fold, unbounded, integers, htext]
    | some found =>
      simp [Fits, nodes, fold, unbounded, integers, htext, hnames text found htext]
  | negate tree ih =>
    have htree (a : ℤ) := @ih a fun n hn ↦ hnumbers n (by simp [nodes, hn])
    rw [fits_negate_iff, exists_inRange_and_iff]
    simp only [fold, Except.bind_eq_ok_iff, htree, negate_eq_ok_iff]
    constructor
    · rintro ⟨a, ⟨hfits, ha⟩, hvalue, hrange⟩
      exact ⟨hfits, ⟨a, ha, hvalue⟩, hrange⟩
    · rintro ⟨hfits, ⟨a, ha, hvalue⟩, hrange⟩
      exact ⟨a, ⟨hfits, ha⟩, hvalue, hrange⟩
  | sum operator left right ihl ihr =>
    rw [fits_sum_iff, exists_inRange_and_iff]
    refine bind₂_eq_ok_iff (fun a ↦ ihl fun n hn ↦ hnumbers n ?_)
      (fun b ↦ ihr fun n hn ↦ hnumbers n ?_) (sum_eq_ok_iff operator)
    · simp [nodes, hn]
    · simp [nodes, hn]
  | product operator left right ihl ihr =>
    rw [fits_product_iff, exists_inRange_and_iff]
    refine bind₂_eq_ok_iff (fun a ↦ ihl fun n hn ↦ hnumbers n ?_)
      (fun b ↦ ihr fun n hn ↦ hnumbers n ?_) (product_eq_ok_iff operator)
    · simp [nodes, hn]
    · simp [nodes, hn]

end Tree

/-- The numbers of a tree are those of its tokens. -/
theorem number_mem_nodes_iff {level : Level} {ts : List Token} {tree : Tree}
    (h : Derives level ts tree) {n : ℕ} : .number n ∈ tree.nodes ↔ .number n ∈ ts := by
  have hsum (operator : SumOperator) : Token.number n ≠ operator.token := by
    cases operator <;> simp [SumOperator.token]
  have hproduct (operator : ProductOperator) : Token.number n ≠ operator.token := by
    cases operator <;> simp [ProductOperator.token]
  induction h with
  | sum operator _ _ ihl ihr => simp [Tree.nodes, ihl, ihr, hsum]
  | product operator _ _ ihl ihr => simp [Tree.nodes, ihl, ihr, hproduct]
  | _ => simp_all [Tree.nodes]

/-! ## Texts -/

theorem inRange_natCast_iff {n : ℕ} : InRange n ↔ n < numberBound := by
  unfold InRange minValue maxValue numberBound
  omega

theorem inRange_toInt (n : Int64) : InRange n.toInt := by
  have hlow := Int64.le_toInt n
  have hhigh := Int64.toInt_lt n
  unfold InRange minValue maxValue
  omega

theorem Parses.unique {source : Text} {tree tree' : Tree} (h : Parses source tree)
    (h' : Parses source tree') : tree = tree' := by
  obtain ⟨ts, hlexes, hderives⟩ := h
  obtain ⟨ts', hlexes', hderives'⟩ := h'
  obtain rfl := hlexes.unique hlexes'
  exact hderives.unique hderives'

/-- An empty text has its own fault, but no text without tokens has a value anyway. -/
theorem evaluate_eq_ok_iff_value {source : Text} :
    evaluate lookup source = .ok value ↔
      ∃ ts, tokens source = .ok ts ∧ Expression.value (integers lookup) ts = .ok value := by
  unfold evaluate
  rw [Except.bind_eq_ok_iff]
  refine exists_congr fun ts ↦ and_congr_right fun _ ↦ ?_
  cases ts with
  | nil => simp [Expression.value, State.finish, pure, Except.pure, bind, Except.bind]
  | cons token rest => rfl

theorem evaluate_eq_ok_iff {source : Text}
    (hnames : ∀ text value, lookup text = some value → InRange value) :
    evaluate lookup source = .ok value ↔
      ∃ tree, Parses source tree ∧ tree.Fits lookup ∧
        tree.fold (unbounded lookup) = .ok value := by
  rw [evaluate_eq_ok_iff_value]
  simp only [tokens_eq_ok_iff, value_eq_ok_iff]
  constructor
  · rintro ⟨ts, ⟨hlexes, hbound⟩, tree, hderives, hfold⟩
    have hnumbers : ∀ n : ℕ, .number n ∈ tree.nodes → InRange n := by
      intro n hn
      rw [number_mem_nodes_iff hderives] at hn
      exact inRange_natCast_iff.2 (hbound n hn)
    exact ⟨tree, ⟨ts, hlexes, hderives⟩, (Tree.fold_integers_eq_ok_iff hnumbers hnames).1 hfold⟩
  · rintro ⟨tree, ⟨ts, hlexes, hderives⟩, hfits, hfold⟩
    have hnumbers : ∀ n : ℕ, .number n ∈ tree.nodes → InRange n := by
      intro n hn
      obtain ⟨other, hother, hrange⟩ := hfits _ hn
      obtain rfl := Except.ok.inj hother
      exact hrange
    refine ⟨ts, ⟨hlexes, fun n hn ↦ ?_⟩, tree, hderives,
      (Tree.fold_integers_eq_ok_iff hnumbers hnames).2 ⟨hfits, hfold⟩⟩
    exact inRange_natCast_iff.1 (hnumbers n ((number_mem_nodes_iff hderives).2 hn))

/-- A text parses in at most one way. It evaluates to a value just when it parses, every name in it
is known, no divisor is zero and each part of it, literals included, has an exact value of 64 bits;
the value is then the exact one. -/
theorem evaluate_exact (lookup : Text → Option Int64) (source : Text) :
    {tree | Parses source tree}.Subsingleton ∧
      ∀ value, evaluate (fun name ↦ (lookup name).map Int64.toInt) source = .ok value ↔
        ∃ tree, Parses source tree ∧ tree.Fits (fun name ↦ (lookup name).map Int64.toInt) ∧
          tree.fold (unbounded fun name ↦ (lookup name).map Int64.toInt) = .ok value := by
  constructor
  · intro tree h tree' h'
    exact h.unique h'
  · intro value
    apply evaluate_eq_ok_iff
    intro text found hfound
    obtain ⟨n, -, rfl⟩ := Option.map_eq_some_iff.1 hfound
    exact inRange_toInt n

end Sequencer.Expression
