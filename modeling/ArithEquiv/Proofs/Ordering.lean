import ArithEquiv.Proofs.Grouping
import Mathlib.Algebra.GroupWithZero.Nat
import Mathlib.Algebra.Order.BigOperators.Group.List
import Mathlib.Algebra.Order.Group.Nat

/-! When the operands of an operator stand in the order of their digests. One sweep of ordering
sees to that for its operator, but ordering the products below a sum changes the digests that the
sum was ordered by. Sums and products ordered in turn until nothing moves are both in order: the
trees up to any weight are, since a sweep moves nothing in a tree whose parts are in order. -/
namespace ArithEquiv

theorem nodeSumsAssociate (x y z : Nat) : x + y + 1 + z + 1 = x + (y + z + 1) + 1 := by
  omega

def weights : Interpretation Nat where
  const _ := 1
  var _ := 1
  neg x := x + 1
  bin _ x y := x + y + 1
  assoc _ := nodeSumsAssociate

namespace Expr

def weight (e : Expr) : Nat := e.value weights

theorem weightPositive (e : Expr) : 0 < e.weight :=
  valueHolds weights (fun _ => Nat.one_pos) (fun _ => Nat.one_pos) (fun _ _ => Nat.succ_pos _)
    (fun _ _ _ _ _ => Nat.succ_pos _) e

theorem flatSum {i : Interpretation Nat} {op : AssocOp} (adds : ∀ x y, i.bin op.bin x y = x + y + 1)
    (first second : Expr) (rest : List Expr) :
    (Expr.flat op first second rest).value i + 1 =
      ((first :: second :: rest).map fun e => e.value i + 1).sum := by
  have sums : ∀ (es : List Expr) (before : Nat), i.chain op before (es.map (value i)) =
      before + (es.map fun e => e.value i + 1).sum := by
    intro es
    induction es with
    | nil => exact fun _ => rfl
    | cons e rest ih =>
      intro before
      refine (ih (i.bin op.bin before (e.value i))).trans ?_
      rw [adds, List.map_cons, List.sum_cons]
      exact Nat.add_assoc before (e.value i + 1) _
  rw [valueFlat, sums]
  simp only [List.map_cons, List.sum_cons]
  omega

theorem weightFlat (op : AssocOp) (first second : Expr) (rest : List Expr) :
    (Expr.flat op first second rest).weight + 1 =
      ((first :: second :: rest).map fun e => e.weight + 1).sum :=
  flatSum (fun _ _ => rfl) first second rest

theorem weightOperand {op : AssocOp} {first second : Expr} {rest : List Expr} {e : Expr}
    (mem : e ∈ first :: second :: rest) : e.weight < (Expr.flat op first second rest).weight := by
  have total := weightFlat op first second rest
  have onFirst := weightPositive first
  have onSecond := weightPositive second
  simp only [List.map_cons, List.sum_cons] at total
  rcases List.mem_cons.1 mem with rfl | mem
  · omega
  rcases List.mem_cons.1 mem with rfl | mem
  · omega
  · have part := List.le_sum_of_mem (List.mem_map_of_mem (f := fun e : Expr => e.weight + 1) mem)
    omega

def before (hash : NodeHash) (a b : Expr) : Bool := (a.digest hash).le (b.digest hash)

variable {hash : NodeHash}

theorem beforeTrans (a b c : Expr) (first : before hash a b) (second : before hash b c) :
    before hash a c := by
  have h := (Digest.leIff _ _).1 first
  have g := (Digest.leIff _ _).1 second
  exact (Digest.leIff _ _).2 (Nat.le_trans h g)

theorem beforeTotal (a b : Expr) : before hash a b || before hash b a := by
  rw [Bool.or_eq_true]
  rcases Nat.le_total (a.digest hash).toNat (b.digest hash).toNat with h | h
  · exact .inl ((Digest.leIff _ _).2 h)
  · exact .inr ((Digest.leIff _ _).2 h)

end Expr

namespace Normalize

open ArithEquiv.Expr

inductive InOrder (hash : NodeHash) (op : AssocOp) (looked : Nat → Prop) : Expr → Prop where
  | const (n : Int) : InOrder hash op looked (.const n)
  | var (name : String) : InOrder hash op looked (.var name)
  | neg {arg : Expr} (inner : InOrder hash op looked arg) : InOrder hash op looked (.neg arg)
  | bin {inner : BinOp} {left right : Expr}
      (sorted : looked (Expr.bin inner left right).weight → inner = op.bin →
        before hash left right)
      (onLeft : InOrder hash op looked left) (onRight : InOrder hash op looked right) :
      InOrder hash op looked (.bin inner left right)
  | flat {inner : AssocOp} {first second : Expr} {rest : List Expr}
      (sorted : looked (Expr.flat inner first second rest).weight → inner = op →
        (first :: second :: rest).Pairwise fun a b => before hash a b)
      (each : ∀ e ∈ first :: second :: rest, InOrder hash op looked e) :
      InOrder hash op looked (.flat inner first second rest)

abbrev AllInOrder (hash : NodeHash) (op : AssocOp) : Expr → Prop := InOrder hash op fun _ => True

abbrev InOrderUpTo (hash : NodeHash) (op : AssocOp) (n : Nat) : Expr → Prop :=
  InOrder hash op fun weight => weight ≤ n

variable {hash : NodeHash} {op : AssocOp} {looked fewer : Nat → Prop} {e : Expr}

theorem InOrder.lookLess (ordered : InOrder hash op looked e)
    (less : ∀ n, n ≤ e.weight → fewer n → looked n) : InOrder hash op fewer e := by
  induction ordered with
  | const n => exact .const n
  | var name => exact .var name
  | neg _ ih => exact .neg (ih fun n bound => less n (Nat.le_succ_of_le bound))
  | @bin inner left right sorted _ _ ihl ihr =>
    have whole : (Expr.bin inner left right).weight = left.weight + right.weight + 1 := rfl
    refine .bin (fun seen => sorted (less _ (Nat.le_refl _) seen)) ?_ ?_
    · exact ihl fun n bound => less n (by omega)
    · exact ihr fun n bound => less n (by omega)
  | flat sorted _ ih =>
    refine .flat (fun seen => sorted (less _ (Nat.le_refl _) seen)) fun e mem => ?_
    exact ih e mem fun n bound => less n (Nat.le_trans bound (Nat.le_of_lt (weightOperand mem)))

theorem inOrderUpToZero (e : Expr) : InOrderUpTo hash op 0 e := by
  induction e using Expr.byArgs with
  | const n => exact .const n
  | var name => exact .var name
  | neg _ ih => exact .neg ih
  | bin inner left right ihl ihr =>
    exact .bin (fun none => absurd none (Nat.not_le_of_lt (weightPositive _))) ihl ihr
  | flat inner first second rest ih =>
    exact .flat (fun none => absurd none (Nat.not_le_of_lt (weightPositive _))) ih

theorem orderWeight (hash : NodeHash) (op : AssocOp) (e : Expr) :
    (orderOnce hash op e).weight = e.weight :=
  valueOrderOnce (fun _ x y => by show x + y + 1 = y + x + 1; omega) hash op e

theorem inOrderJoin {inner : AssocOp} {es : List Expr}
    (sorted : looked (Expr.join inner es).weight → inner = op →
      es.Pairwise fun a b => before hash a b)
    (each : ∀ e ∈ es, InOrder hash op looked e) : InOrder hash op looked (.join inner es) := by
  match es with
  | [] => exact .const _
  | [e] => exact each e (by simp)
  | first :: second :: rest => exact .flat sorted each

theorem orderOnceInOrder (hash : NodeHash) (op : AssocOp) (e : Expr) :
    AllInOrder hash op (orderOnce hash op e) := by
  induction e using Expr.byArgs with
  | const n => rw [orderConst]; exact .const n
  | var name => rw [orderVar]; exact .var name
  | neg arg ih => rw [orderNeg]; exact .neg ih
  | bin inner left right ihl ihr =>
    rw [orderBin]
    dsimp only
    split
    · rename_i turned
      have other := (Bool.or_eq_true_iff.1 (beforeTotal (orderOnce hash op left)
        (orderOnce hash op right))).resolve_left turned.2
      exact .bin (fun _ _ => other) ihr ihl
    · rename_i kept
      refine .bin (fun _ same => ?_) ihl ihr
      by_contra out
      exact kept ⟨same, out⟩
  | flat inner first second rest ih =>
    rw [orderFlat]
    dsimp only
    have each : ∀ t ∈ (first :: second :: rest).map (orderOnce hash op),
        AllInOrder hash op t := by
      intro t mem
      obtain ⟨e, member, rfl⟩ := List.mem_map.1 mem
      exact ih e member
    refine inOrderJoin (fun _ same => ?_) fun t mem => ?_
    · rw [if_pos same, Sorting.sortEqMergeSort]
      exact List.pairwise_mergeSort beforeTrans beforeTotal _
    · split at mem
      · rw [Sorting.sortEqMergeSort, List.mem_mergeSort] at mem
        exact each t mem
      · exact each t mem

theorem orderOnceFixed (ordered : AllInOrder hash op e) : orderOnce hash op e = e := by
  induction ordered with
  | const n => exact orderConst hash op n
  | var name => exact orderVar hash op name
  | neg _ ih => rw [orderNeg, ih]
  | bin sorted _ _ ihl ihr =>
    rw [orderBin, ihl, ihr]
    dsimp only
    rw [if_neg fun turned => turned.2 (sorted trivial turned.1)]
  | @flat inner first second rest sorted _ ih =>
    have same : (first :: second :: rest).map (orderOnce hash op) = first :: second :: rest :=
      (List.map_congr_left ih).trans (List.map_id _)
    rw [orderFlat, same]
    dsimp only
    split
    · rename_i own
      rw [Sorting.sortEqMergeSort]
      exact congrArg (Expr.join inner) (List.mergeSort_of_pairwise (sorted trivial own))
    · rfl

theorem orderUpToFixed {n : Nat} (ordered : InOrderUpTo hash op n e) (light : e.weight ≤ n) :
    orderOnce hash op e = e :=
  orderOnceFixed (ordered.lookLess fun _ bound _ => Nat.le_trans bound light)

theorem orderOnceTwice (hash : NodeHash) (op : AssocOp) (e : Expr) :
    orderOnce hash op (orderOnce hash op e) = orderOnce hash op e :=
  orderOnceFixed (orderOnceInOrder hash op e)

theorem orderFlattened (hash : NodeHash) (op : AssocOp) (flattened : Flattened e) :
    Flattened (orderOnce hash op e) ∧ rootOp? (orderOnce hash op e) = rootOp? e := by
  induction flattened with
  | const n => rw [orderConst]; exact ⟨.const n, rfl⟩
  | var name => rw [orderVar]; exact ⟨.var name, rfl⟩
  | neg _ ih => rw [orderNeg]; exact ⟨.neg ih.1, rfl⟩
  | bin other _ _ ihl ihr =>
    rw [orderBin]
    dsimp only
    split
    · exact ⟨.bin other ihr.1 ihl.1, rfl⟩
    · exact ⟨.bin other ihl.1 ihr.1, rfl⟩
  | @flat inner first second rest _ apart ih =>
    rw [orderFlat]
    dsimp only
    have each : ∀ t ∈ (first :: second :: rest).map (orderOnce hash op),
        Flattened t ∧ rootOp? t ≠ some inner := by
      intro t mem
      obtain ⟨e, member, rfl⟩ := List.mem_map.1 mem
      rw [(ih e member).2]
      exact ⟨(ih e member).1, apart e member⟩
    split
    · rw [Sorting.sortEqMergeSort]
      refine ⟨flattenedJoin (fun t mem => ?_) fun t mem => ?_, rootJoin ?_⟩
      · exact (each t (List.mem_mergeSort.1 mem)).1
      · exact (each t (List.mem_mergeSort.1 mem)).2
      · rw [List.length_mergeSort, List.length_map]
        exact Nat.le_add_left 2 rest.length
    · exact ⟨flattenedJoin (fun t mem => (each t mem).1) fun t mem => (each t mem).2, rfl⟩

/- Ordering one operator leaves the other in order as far as the parts did not have to move. -/
theorem orderOtherUpTo {other : AssocOp} {n : Nat} (differ : op ≠ other)
    (parts : InOrderUpTo hash op n e) (ordered : InOrderUpTo hash other (n + 1) e) :
    InOrderUpTo hash other (n + 1) (orderOnce hash op e) := by
  induction ordered with
  | const n => rw [orderConst]; exact .const n
  | var name => rw [orderVar]; exact .var name
  | neg _ ih =>
    cases parts with
    | neg inner => rw [orderNeg]; exact .neg (ih inner)
  | @bin inner left right sorted onLeft onRight ihl ihr =>
    cases parts with
    | bin _ partsLeft partsRight =>
      have kept := orderWeight hash op (.bin inner left right)
      have whole : (Expr.bin inner left right).weight = left.weight + right.weight + 1 := rfl
      rw [orderBin] at kept ⊢
      dsimp only at kept ⊢
      split at kept
      · rename_i turned
        rw [if_pos turned]
        refine .bin (fun _ same => ?_) (ihr partsRight) (ihl partsLeft)
        rw [turned.1] at same
        cases op <;> cases other <;> first | exact absurd rfl differ | cases same
      · rename_i stays
        rw [if_neg stays]
        refine .bin (fun light same => ?_) (ihl partsLeft) (ihr partsRight)
        rw [kept] at light
        -- A tree light enough to be looked at has parts in order, which have not moved.
        rw [orderUpToFixed partsLeft (by omega), orderUpToFixed partsRight (by omega)]
        exact sorted light same
  | @flat inner first second rest sorted each ih =>
    cases parts with
    | flat _ partsEach =>
      have kept := orderWeight hash op (.flat inner first second rest)
      have all : ∀ t ∈ (first :: second :: rest).map (orderOnce hash op),
          InOrderUpTo hash other (n + 1) t := by
        intro t mem
        obtain ⟨e, member, rfl⟩ := List.mem_map.1 mem
        exact ih e member (partsEach e member)
      rw [orderFlat] at kept ⊢
      dsimp only at kept ⊢
      refine inOrderJoin (fun light same => ?_) fun t mem => ?_
      · rw [kept] at light
        have still : (first :: second :: rest).map (orderOnce hash op) =
            first :: second :: rest := by
          refine (List.map_congr_left fun e mem => ?_).trans (List.map_id _)
          have lighter : e.weight < (Expr.flat inner first second rest).weight := weightOperand mem
          exact orderUpToFixed (partsEach e mem) (by omega)
        rw [if_neg fun own => differ (own.symm.trans same), still]
        exact sorted light same
      · split at mem
        · rw [Sorting.sortEqMergeSort, List.mem_mergeSort] at mem
          exact all t mem
        · exact all t mem

section Runs

variable {settings : Settings} {r : Expr}

theorem orderSumsRun (run : orderSums settings e = .ok r) :
    r = orderOnce settings.hash .add e :=
  fixedPointOnce (orderOnceTwice settings.hash .add) run

theorem orderProductsRun (run : orderProducts settings e = .ok r) :
    r = orderOnce settings.hash .mul e :=
  fixedPointOnce (orderOnceTwice settings.hash .mul) run

theorem inTurnUpTo {n : Nat} (sums : InOrderUpTo hash .add n e) (products : InOrderUpTo hash .mul n e) :
    InOrderUpTo hash .add (n + 1) (orderOnce hash .mul (orderOnce hash .add e)) := by
  have kept : InOrderUpTo hash .mul n (orderOnce hash .add e) := by
    cases n with
    | zero => exact inOrderUpToZero _
    | succ n =>
      refine orderOtherUpTo (by decide) ?_ products
      exact sums.lookLess fun _ _ small => Nat.le_succ_of_le small
  refine orderOtherUpTo (by decide) kept ?_
  exact (orderOnceInOrder hash .add e).lookLess fun _ _ _ => trivial

theorem orderInTurnStable
    (stable : orderOnce hash .mul (orderOnce hash .add e) = e) : AllInOrder hash .add e := by
  have products : AllInOrder hash .mul e := by
    rw [← stable]
    exact orderOnceInOrder hash .mul _
  have upTo : ∀ n, InOrderUpTo hash .add n e := by
    intro n
    induction n with
    | zero => exact inOrderUpToZero e
    | succ n ih =>
      have again := inTurnUpTo ih (products.lookLess fun _ _ _ => trivial)
      rwa [stable] at again
  exact (upTo e.weight).lookLess fun _ bound _ => bound

theorem orderOperandsInOrder (run : orderOperands settings e = .ok r) :
    AllInOrder settings.hash .add r ∧ AllInOrder settings.hash .mul r := by
  obtain ⟨sums, first, second⟩ := bindOk.1 (fixedPointStable run)
  have stable := orderProductsRun second
  rw [orderSumsRun first] at stable
  refine ⟨orderInTurnStable stable.symm, ?_⟩
  rw [stable]
  exact orderOnceInOrder settings.hash .mul _

end Runs

end Normalize

end ArithEquiv
