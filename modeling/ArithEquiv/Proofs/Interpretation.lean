import ArithEquiv.Normalize.Flatten
import ArithEquiv.Normalize.Order
import Mathlib.Algebra.BigOperators.Group.List.Basic
import Mathlib.Algebra.Group.WithOne.Basic

/-! Interpretations of expressions whose sum and product are associative. A flat call means its
chain. Flattening and unflattening keep every value; ordering keeps it where sum and product also
commute. Nothing else is asked of an interpretation: values may be numbers, shapes or sizes. -/
namespace ArithEquiv

structure Interpretation (A : Type u) where
  const : Int → A
  var : String → A
  neg : A → A
  bin : BinOp → A → A → A
  assoc : ∀ (op : AssocOp) (a b c : A),
    bin op.bin (bin op.bin a b) c = bin op.bin a (bin op.bin b c)

namespace Interpretation

variable {A : Type u} (i : Interpretation A)

def Commutative : Prop := ∀ (op : AssocOp) (a b : A), i.bin op.bin a b = i.bin op.bin b a

def chain (op : AssocOp) (first : A) (rest : List A) : A := rest.foldl (i.bin op.bin) first

@[reducible]
def semigroup (op : AssocOp) : Semigroup A where
  mul := i.bin op.bin
  mul_assoc := i.assoc op

/- A chain may be cut anywhere, also at its ends: the empty piece is the adjoined unit. -/
def total (op : AssocOp) (values : List A) : WithOne A :=
  letI := i.semigroup op
  (values.map WithOne.coe).prod

theorem totalAppend (op : AssocOp) (xs ys : List A) :
    letI := i.semigroup op
    i.total op (xs ++ ys) = i.total op xs * i.total op ys := by
  let _ := i.semigroup op
  rw [total, List.map_append]
  exact List.prod_append

theorem totalCons (op : AssocOp) (first : A) (rest : List A) :
    i.total op (first :: rest) = WithOne.coe (i.chain op first rest) := by
  let _ := i.semigroup op
  induction rest generalizing first with
  | nil => exact List.prod_singleton
  | cons next rest ih =>
    have joined : WithOne.coe (i.bin op.bin first next) =
        WithOne.coe first * WithOne.coe next := rfl
    rw [chain, List.foldl_cons, ← chain, ← ih]
    simp only [total, List.map_cons, List.prod_cons]
    rw [joined, mul_assoc]

theorem totalSingle (op : AssocOp) (a : A) : i.total op [a] = WithOne.coe a :=
  i.totalCons op a []

theorem totalPerm {i : Interpretation A} (commutes : i.Commutative) (op : AssocOp)
    {xs ys : List A} (same : xs.Perm ys) : i.total op xs = i.total op ys := by
  let _ : CommSemigroup A := { i.semigroup op with mul_comm := commutes op }
  exact (same.map WithOne.coe).prod_eq

theorem totalFlatten (op : AssocOp) (groups : List (List A)) :
    letI := i.semigroup op
    i.total op groups.flatten = (groups.map (i.total op)).prod := by
  let _ := i.semigroup op
  induction groups with
  | nil => rfl
  | cons group rest ih =>
    rw [List.flatten_cons, totalAppend, ih, List.map_cons, List.prod_cons]

end Interpretation

namespace Expr

@[elab_as_elim]
theorem byArgs {P : Expr → Prop}
    (const : ∀ value, P (.const value))
    (var : ∀ name, P (.var name))
    (neg : ∀ arg, P arg → P (.neg arg))
    (bin : ∀ op left right, P left → P right → P (.bin op left right))
    (flat : ∀ op first second rest, (∀ e ∈ first :: second :: rest, P e) →
      P (.flat op first second rest))
    (e : Expr) : P e := by
  induction e with
  | const value => exact const value
  | var name => exact var name
  | neg arg ih => exact neg arg ih
  | bin op left right ihl ihr => exact bin op left right ihl ihr
  | flat op first second rest ihf ihs ihr =>
    exact flat op first second rest
      (List.forall_mem_cons.2 ⟨ihf, List.forall_mem_cons.2 ⟨ihs, ihr⟩⟩)

variable {A : Type u} (i : Interpretation A)

mutual

def value : Expr → A
  | .const n => i.const n
  | .var name => i.var name
  | .neg arg => i.neg (value arg)
  | .bin op left right => i.bin op (value left) (value right)
  | .flat op first second rest =>
      valueOnto op (i.bin op.bin (value first) (value second)) rest

def valueOnto (op : AssocOp) : A → List Expr → A
  | before, [] => before
  | before, e :: rest => valueOnto op (i.bin op.bin before (value e)) rest

end

theorem valueConst (n : Int) : value i (.const n) = i.const n := rfl

theorem valueNeg (arg : Expr) : value i (.neg arg) = i.neg (value i arg) := rfl

theorem valueBin (op : BinOp) (left right : Expr) :
    value i (.bin op left right) = i.bin op (value i left) (value i right) := rfl

theorem valueOntoEq (op : AssocOp) (before : A) (rest : List Expr) :
    valueOnto i op before rest = i.chain op before (rest.map (value i)) := by
  induction rest generalizing before with
  | nil => rfl
  | cons e rest ih => exact ih _

theorem valueFlat (op : AssocOp) (first second : Expr) (rest : List Expr) :
    value i (.flat op first second rest) =
      i.chain op (value i first) ((second :: rest).map (value i)) :=
  valueOntoEq i op _ rest

theorem valueHolds {P : A → Prop} (const : ∀ n, P (i.const n)) (var : ∀ name, P (i.var name))
    (neg : ∀ x, P x → P (i.neg x)) (bin : ∀ op x y, P x → P y → P (i.bin op x y)) (e : Expr) :
    P (e.value i) := by
  induction e using Expr.byArgs with
  | const n => exact const n
  | var name => exact var name
  | neg arg ih => exact neg _ ih
  | bin op left right ihl ihr => exact bin op _ _ ihl ihr
  | flat op first second rest ih =>
    have chains : ∀ (es : List Expr) (x : A), P x → (∀ e ∈ es, P (e.value i)) →
        P (i.chain op x (es.map (value i))) := by
      intro es
      induction es with
      | nil => exact fun _ h _ => h
      | cons e es more =>
        intro x holds each
        exact more _ (bin op.bin _ _ holds (each e (by simp))) fun t mem => each t (by simp [mem])
    rw [valueFlat]
    exact chains _ _ (ih first (by simp)) fun e mem => ih e (List.mem_cons_of_mem _ mem)

theorem valueMap {B : Type v} (j : Interpretation B) {f : A → B}
    (const : ∀ n, f (i.const n) = j.const n) (var : ∀ name, f (i.var name) = j.var name)
    (neg : ∀ x, f (i.neg x) = j.neg (f x))
    (bin : ∀ op x y, f (i.bin op x y) = j.bin op (f x) (f y)) (e : Expr) :
    f (e.value i) = e.value j := by
  induction e using Expr.byArgs with
  | const n => exact const n
  | var name => exact var name
  | neg arg ih => rw [valueNeg, valueNeg, neg, ih]
  | bin op left right ihl ihr => rw [valueBin, valueBin, bin, ihl, ihr]
  | flat op first second rest ih =>
    have chains : ∀ (es : List Expr) (x : A) (y : B), f x = y →
        (∀ e ∈ es, f (e.value i) = e.value j) →
        f (i.chain op x (es.map (value i))) = j.chain op y (es.map (value j)) := by
      intro es
      induction es with
      | nil => exact fun _ _ same _ => same
      | cons e es more =>
        intro x y same each
        refine more _ _ ?_ fun t mem => each t (by simp [mem])
        rw [bin, same, each e (by simp)]
    rw [valueFlat, valueFlat]
    exact chains _ _ _ (ih first (by simp)) fun e mem => ih e (List.mem_cons_of_mem _ mem)

theorem totalFlat (op : AssocOp) (first second : Expr) (rest : List Expr) :
    WithOne.coe (value i (.flat op first second rest)) =
      i.total op ((first :: second :: rest).map (value i)) := by
  rw [valueFlat]
  exact (i.totalCons op _ _).symm

theorem totalJoin (op : AssocOp) {es : List Expr} (some : es ≠ []) :
    WithOne.coe (value i (.join op es)) = i.total op (es.map (value i)) := by
  match es with
  | [e] => exact (i.totalSingle op _).symm
  | first :: second :: rest => exact totalFlat i op first second rest

end Expr

namespace Normalize

open ArithEquiv.Expr Interpretation

variable {A : Type u} (i : Interpretation A)

theorem valueLeftChain (op : AssocOp) (first : Expr) (rest : List Expr) :
    (leftChain op.bin first rest).value i = i.chain op (first.value i) (rest.map (value i)) := by
  induction rest generalizing first with
  | nil => rfl
  | cons next rest ih =>
    rw [leftChain, List.foldl_cons, ← leftChain, ih]
    rfl

theorem valueUnflattenNode (e : Expr) : (unflattenNode e).value i = e.value i := by
  cases e with
  | flat op first second rest => rw [unflattenNode, valueLeftChain, valueFlat]
  | _ => rfl

theorem nonempty {op : AssocOp} {es : List Expr} {a : A}
    (total : i.total op (es.map (value i)) = WithOne.coe a) : es ≠ [] := by
  rintro rfl
  exact WithOne.coe_ne_one total.symm

theorem totalOperandsFor (op : AssocOp) (e : Expr) (flattened : (flattenOnce e).value i = e.value i)
    (operands : ∀ op', rootOp? e = some op' →
      i.total op' ((operandsFor op' e).map (value i)) = WithOne.coe (e.value i)) :
    i.total op ((operandsFor op e).map (value i)) = WithOne.coe (e.value i) := by
  by_cases same : rootOp? e = some op
  · exact operands op same
  · rw [operandsForOther same, List.map_singleton, totalSingle, flattened]

/- Both halves at once: the operands a tree offers to a chain around it, and the tree by itself. -/
theorem valueFlattenBoth (e : Expr) : (flattenOnce e).value i = e.value i ∧
    ∀ op, i.total op ((operandsFor op e).map (value i)) = WithOne.coe (e.value i) := by
  suffices h : (flattenOnce e).value i = e.value i ∧ ∀ op, rootOp? e = some op →
      i.total op ((operandsFor op e).map (value i)) = WithOne.coe (e.value i) from
    ⟨h.1, fun op => totalOperandsFor i op e h.1 h.2⟩
  induction e using Expr.byArgs with
  | const value => exact ⟨by rw [flattenConst], by simp [rootOp?]⟩
  | var name => exact ⟨by rw [flattenVar], by simp [rootOp?]⟩
  | neg arg ih => exact ⟨by rw [flattenNeg, valueNeg, valueNeg, ih.1], by simp [rootOp?]⟩
  | bin op left right ihl ihr =>
    cases kind : op.assoc? with
    | none =>
      refine ⟨?_, by simp [rootOp?, kind]⟩
      rw [flattenOther kind, valueBin, valueBin, ihl.1, ihr.1]
    | some assoc =>
      obtain rfl := BinOp.assocIffBin.1 kind
      have all : i.total assoc ((operandsFor assoc (.bin assoc.bin left right)).map (value i)) =
          WithOne.coe ((Expr.bin assoc.bin left right).value i) := by
        rw [operandsForBin, List.map_append, totalAppend,
          totalOperandsFor i assoc left ihl.1 ihl.2, totalOperandsFor i assoc right ihr.1 ihr.2]
        rfl
      refine ⟨?_, ?_⟩
      · rw [operandsForBin] at all
        exact WithOne.coe_injective
          (by rw [flattenBin, totalJoin i assoc (nonempty i all), all])
      · intro op found
        obtain rfl : assoc = op := by simpa [rootOp?, kind] using found
        exact all
  | flat op first second rest ih =>
    have each : ∀ e ∈ first :: second :: rest,
        i.total op ((operandsFor op e).map (value i)) = WithOne.coe (e.value i) :=
      fun e mem => totalOperandsFor i op e (ih e mem).1 (ih e mem).2
    have all : i.total op (((first :: second :: rest).flatMap (operandsFor op)).map (value i)) =
        WithOne.coe ((Expr.flat op first second rest).value i) := by
      let _ := i.semigroup op
      have pieces := List.map_congr_left each
      rw [totalFlat, List.map_flatMap, List.flatMap_def, totalFlatten, List.map_map]
      exact congrArg List.prod (pieces.trans List.map_map.symm)
    refine ⟨?_, ?_⟩
    · exact WithOne.coe_injective (by rw [flattenFlat, totalJoin i op (nonempty i all), all])
    · intro op' found
      obtain rfl : op = op' := by simpa [rootOp?] using found
      rw [operandsForFlat]
      exact all

theorem valueFlattenOnce (e : Expr) : (flattenOnce e).value i = e.value i :=
  (valueFlattenBoth i e).1

theorem valueOrderOnce {i : Interpretation A} (commutes : i.Commutative) (hash : NodeHash)
    (op : AssocOp) (e : Expr) : (orderOnce hash op e).value i = e.value i := by
  induction e using Expr.byArgs with
  | const value => rw [orderConst]
  | var name => rw [orderVar]
  | neg arg ih => rw [orderNeg, valueNeg, valueNeg, ih]
  | bin inner left right ihl ihr =>
    rw [orderBin]
    dsimp only
    split
    · rename_i turned
      rw [turned.1, valueBin, valueBin, ihl, ihr, commutes]
    · rw [valueBin, valueBin, ihl, ihr]
  | flat inner first second rest ih =>
    have kept : i.total inner (((first :: second :: rest).map (orderOnce hash op)).map (value i)) =
        WithOne.coe ((Expr.flat inner first second rest).value i) := by
      rw [totalFlat, List.map_map]
      exact congrArg (i.total inner) (List.map_congr_left ih)
    rw [orderFlat]
    dsimp only
    split
    · have moved := List.mergeSort_perm ((first :: second :: rest).map (orderOnce hash op))
        fun a b => (a.digest hash).le (b.digest hash)
      rw [← Sorting.sortEqMergeSort] at moved
      have same := (totalPerm commutes inner (moved.map (value i))).trans kept
      exact WithOne.coe_injective ((totalJoin i inner (nonempty i same)).trans same)
    · exact WithOne.coe_injective ((totalJoin i inner (by simp)).trans kept)

end Normalize

end ArithEquiv
