import ArithEquiv.Proofs.SignLaws
import Mathlib.Algebra.BigOperators.Group.Multiset.Basic
import Mathlib.Algebra.GroupWithZero.Hom
import Mathlib.Algebra.Ring.Basic
import Mathlib.Data.Multiset.UnionInter
import Mathlib.Tactic.Ring

/-! Interpretations in a commutative semiring whose constants multiply as integers do. A negation
is a product with the constant minus one. Signs, units and products of constants are rewritten by
laws of such a semiring alone; sums of constants, cancellation and quotients of sums need that
constants also add, and that a quotient is additive in its numerator. -/
namespace ArithEquiv

structure Arithmetic (A : Type u) [CommSemiring A] where
  const : ℤ →*₀ A
  var : String → A
  divide : A → A → A

namespace Arithmetic

variable {A : Type u} [CommSemiring A] (a : Arithmetic A)

def interpretation : Interpretation A where
  const := a.const
  var := a.var
  neg x := a.const (-1) * x
  bin
    | .add => fun x y => x + y
    | .sub => fun x y => x + a.const (-1) * y
    | .mul => fun x y => x * y
    | .div => a.divide
  assoc
    | .add => add_assoc
    | .mul => mul_assoc

theorem commutative : a.interpretation.Commutative
  | .add => add_comm
  | .mul => mul_comm

structure Exact : Prop where
  constAdd : ∀ m n : Int, a.const (m + n) = a.const m + a.const n
  divideAdd : ∀ x y z : A, a.divide (x + y) z = a.divide x z + a.divide y z

def value (e : Expr) : A := e.value a.interpretation

def combine : AssocOp → List A → A
  | .add => List.sum
  | .mul => List.prod

def combineTwo : AssocOp → A → A → A
  | .add => fun x y => x + y
  | .mul => fun x y => x * y

theorem valueConst (n : Int) : a.value (.const n) = a.const n := rfl

theorem valueNeg (e : Expr) : a.value (.neg e) = a.const (-1) * a.value e := rfl

theorem valueAdd (l r : Expr) : a.value (.bin .add l r) = a.value l + a.value r := rfl

theorem valueSub (l r : Expr) :
    a.value (.bin .sub l r) = a.value l + a.const (-1) * a.value r := rfl

theorem valueMul (l r : Expr) : a.value (.bin .mul l r) = a.value l * a.value r := rfl

theorem chainEq (op : AssocOp) (x : A) (xs : List A) :
    a.interpretation.chain op x xs = combine op (x :: xs) := by
  induction xs generalizing x with
  | nil =>
    cases op with
    | add => exact (List.sum_singleton).symm
    | mul => exact (List.prod_singleton).symm
  | cons y ys ih =>
    refine (ih _).trans ?_
    cases op with
    | add => simp only [combine, List.sum_cons]; exact add_assoc x y _
    | mul => simp only [combine, List.prod_cons]; exact mul_assoc x y _

theorem valueFlat (op : AssocOp) (first second : Expr) (rest : List Expr) :
    a.value (.flat op first second rest) =
      combine op ((first :: second :: rest).map a.value) := by
  rw [value, Expr.valueFlat, chainEq]
  rfl

theorem valueJoin (op : AssocOp) (es : List Expr) :
    a.value (.join op es) = combine op (es.map a.value) := by
  match es with
  | [] =>
    cases op with
    | add => exact map_zero a.const
    | mul => exact map_one a.const
  | [e] =>
    cases op with
    | add => exact (List.sum_singleton).symm
    | mul => exact (List.prod_singleton).symm
  | first :: second :: rest => exact a.valueFlat op first second rest

theorem signSquare : a.const (-1) * a.const (-1) = 1 := by
  rw [← map_mul]
  exact map_one a.const

theorem signLaws : a.interpretation.SignLaws where
  zeroAdd x := (congrArg (· + x) (map_zero a.const)).trans (zero_add x)
  addZero x := (congrArg (x + ·) (map_zero a.const)).trans (add_zero x)
  zeroMul x := by
    show a.const 0 * x = a.const 0
    rw [map_zero, zero_mul]
  mulZero x := by
    show x * a.const 0 = a.const 0
    rw [map_zero, mul_zero]
  oneMul x := (congrArg (· * x) (map_one a.const)).trans (one_mul x)
  mulOne x := (congrArg (x * ·) (map_one a.const)).trans (mul_one x)
  central n x := mul_comm x (a.const n)
  magnitude n := by
    show a.const (-1) * a.const (-n) = a.const n
    rw [← map_mul, neg_one_mul, neg_neg]
  neg _ := rfl
  subZero x := by
    show x + a.const (-1) * a.const 0 = x
    rw [map_zero, mul_zero, add_zero]
  zeroSub x := (congrArg (· + a.const (-1) * x) (map_zero a.const)).trans (zero_add _)

end Arithmetic

namespace Normalize

open Arithmetic

variable {A : Type u} [CommSemiring A] (a : Arithmetic A)

theorem subToAddNodeValue (e : Expr) : a.value (subToAddNode e) = a.value e := by
  unfold subToAddNode
  split <;> rfl

theorem negToMulNodeValue (e : Expr) : a.value (negToMulNode e) = a.value e := by
  unfold negToMulNode
  split <;> rfl

/- How constants combine is all that an interpretation is asked here: for products always, for
sums only where constants add. -/
def Combines (op : AssocOp) : Prop :=
  ∀ ns : List Int, a.const (op.total ns) = combine op (ns.map a.const)

theorem totalMul (ns : List Int) : AssocOp.mul.total ns = ns.prod := by
  rw [List.prod_eq_foldl]
  rfl

theorem totalAdd (ns : List Int) : AssocOp.add.total ns = ns.sum := by
  rw [List.sum_eq_foldl]
  rfl

theorem productsCombine : Combines a .mul := by
  intro ns
  rw [totalMul, map_list_prod]
  rfl

theorem sumsCombine {a : Arithmetic A} (exact : a.Exact) : Combines a .add := by
  intro ns
  rw [totalAdd]
  induction ns with
  | nil => exact map_zero a.const
  | cons n rest ih =>
    rw [List.sum_cons, exact.constAdd, ih]
    rfl

theorem combineCons (op : AssocOp) (x : A) (xs : List A) :
    combine op (x :: xs) = combineTwo op x (combine op xs) := by
  cases op with
  | add => exact List.sum_cons
  | mul => exact List.prod_cons

theorem combinePerm (op : AssocOp) {xs ys : List A} (same : xs.Perm ys) :
    combine op xs = combine op ys := by
  cases op with
  | add => exact same.sum_eq
  | mul => exact same.prod_eq

theorem combineAppend (op : AssocOp) (xs ys : List A) :
    combine op (xs ++ ys) = combineTwo op (combine op xs) (combine op ys) := by
  cases op with
  | add => exact List.sum_append
  | mul => exact List.prod_append

theorem combineSingle (op : AssocOp) (x : A) : combine op [x] = x := by
  cases op with
  | add => exact List.sum_singleton
  | mul => exact List.prod_singleton

theorem constOrOther (e : Expr) :
    (∃ n, e = .const n) ∨ (e.const? = none) := by
  cases e with
  | const n => exact .inl ⟨n, rfl⟩
  | _ => exact .inr rfl

def drawnIn (op : AssocOp) (es : List Expr) : List Expr := es.flatMap (spliced op)

def numbers (es : List Expr) : List Int := es.filterMap Expr.const?

def others (es : List Expr) : List Expr := es.filter fun e => e.const?.isNone

theorem splicedAlone {op : AssocOp} {e : Expr} (apart : rootOp? e ≠ some op) :
    spliced op e = [e] := by
  cases e with
  | flat inner _ _ _ => exact if_neg fun same => apart (congrArg some same)
  | _ => rfl

theorem drawnInSelf {op : AssocOp} {es : List Expr} (apart : ∀ e ∈ es, rootOp? e ≠ some op) :
    drawnIn op es = es := by
  rw [drawnIn, List.flatMap_congr fun e mem => splicedAlone (apart e mem), List.flatMap_singleton']

theorem othersAll {es : List Expr} (none : numbers es = []) : others es = es := by
  refine List.filter_eq_self.2 fun e mem => ?_
  rw [List.filterMap_eq_nil_iff.1 none e mem]
  rfl

theorem constsApart (es : List Expr) : es.Perm ((numbers es).map .const ++ others es) := by
  induction es with
  | nil => exact .refl _
  | cons e rest ih =>
    rcases constOrOther e with ⟨n, rfl⟩ | other
    · exact ih.cons _
    · rw [numbers, others, List.filterMap_cons_none other, List.filter_cons,
        if_pos (by rw [other]; rfl)]
      exact (ih.cons e).trans List.perm_middle.symm

theorem splicedValue (op : AssocOp) (es : List Expr) :
    combine op ((es.flatMap (spliced op)).map a.value) = combine op (es.map a.value) := by
  induction es with
  | nil => rfl
  | cons e rest ih =>
    have one : combine op ((spliced op e).map a.value) = a.value e := by
      unfold spliced
      split
      · split
        · rename_i same
          rw [← same]
          exact (a.valueFlat _ _ _ _).symm
        · exact combineSingle op _
      · exact combineSingle op _
    rw [List.flatMap_cons, List.map_append, combineAppend, one, ih, List.map_cons, combineCons]

theorem operandsCombined {op : AssocOp} {es : List Expr}
    (combines : a.const (op.total (numbers es)) = combine op ((numbers es).map a.const)) :
    combine op (es.map a.value) =
      combineTwo op (a.const (op.total (numbers es))) (combine op ((others es).map a.value)) := by
  rw [combinePerm op ((constsApart es).map a.value), List.map_append, combineAppend, List.map_map,
    combines]
  rfl

inductive FoldsTo (op : AssocOp) (es : List Expr) : Expr → Prop where
  | zero (product : op = .mul) (none : op.total (numbers es) = 0) : FoldsTo op es (.const 0)
  | identity (same : op.total (numbers es) = op.identity) : FoldsTo op es (.join op (others es))
  | constant (differs : op.total (numbers es) ≠ op.identity)
      (some : op = .mul → op.total (numbers es) ≠ 0) :
      FoldsTo op es (.join op (.const (op.total (numbers es)) :: others es))

theorem foldConstantsNodeOk {op : AssocOp} {first second r : Expr} {rest : List Expr}
    (run : foldConstantsNode (.flat op first second rest) = .ok r) :
    FoldsTo op (drawnIn op (first :: second :: rest)) r := by
  simp only [foldConstantsNode] at run
  split at run
  · rename_i zero
    cases run
    exact .zero zero.1 zero.2
  · rename_i notZero
    split at run
    · rename_i same
      cases run
      exact .identity same
    · rename_i differs
      obtain ⟨constant, made, last⟩ := bindOk.1 run
      cases last
      unfold Expr.ofConst at made
      split at made
      · cases made
        exact .constant differs fun product zero => notZero ⟨product, zero⟩
      · cases made

theorem foldConstantsNodeValue {op : AssocOp} {es : List Expr} {r : Expr}
    (folds : FoldsTo op (drawnIn op es) r)
    (combines : a.const (op.total (numbers (drawnIn op es))) =
      combine op ((numbers (drawnIn op es)).map a.const)) :
    combine op (es.map a.value) = a.value r := by
  rw [← splicedValue, ← drawnIn, operandsCombined a combines]
  cases folds with
  | zero product none =>
    subst product
    rw [none, valueConst, map_zero]
    exact zero_mul _
  | identity same =>
    rw [same, valueJoin]
    cases op with
    | add => exact (congrArg (· + _) (map_zero a.const)).trans (zero_add _)
    | mul => exact (congrArg (· * _) (map_one a.const)).trans (one_mul _)
  | constant differs some => rw [valueJoin, List.map_cons, valueConst, ← combineCons]

section Passes

variable {settings : Settings} {e r : Expr}

theorem subToAddValue (e : Expr) : a.value (subToAdd e) = a.value e :=
  (a.interpretation.compatibleEq.bottomUp (fun e => (subToAddNodeValue a e).symm) e).symm

theorem negToMulValue (e : Expr) : a.value (negToMul e) = a.value e :=
  (a.interpretation.compatibleEq.bottomUp (fun e => (negToMulNodeValue a e).symm) e).symm

theorem cleanSignsValue (run : cleanSigns settings e = .ok r) : a.value r = a.value e := by
  obtain ⟨flat, ordered, flattened, sorted, kept⟩ := a.signLaws.cleanSigns run
  exact kept.trans ((orderProductsValue a.commutative sorted).trans (flattenValue _ flattened))

theorem cleanUnitsValue (run : cleanUnits settings e = .ok r) : a.value r = a.value e :=
  a.signLaws.cleanUnits run

theorem takeSignsValue (run : takeSigns settings e = .ok r) : a.value r = a.value e :=
  a.signLaws.takeSigns run

end Passes

end Normalize

end ArithEquiv
