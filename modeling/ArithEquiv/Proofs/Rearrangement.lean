import ArithEquiv.Proofs.Collisions
import Mathlib.Data.Multiset.Basic
import Mathlib.Algebra.BigOperators.Group.Multiset.Basic
import Mathlib.Data.Countable.Basic
import Mathlib.Logic.Equiv.List
import Mathlib.Tactic.DeriveCountable

/-! Trees that differ only in the order and the grouping of sums and products: every
interpretation whose sum and product are associative and commutative gives them one value. The
interpretation that forgets order and grouping and nothing else tells all other trees apart, and
of the flattened trees with one value at most one has all its operands in order. -/
namespace ArithEquiv

def Rearranged (a b : Expr) : Prop :=
  ∀ (A : Type) (i : Interpretation A), i.Commutative → a.value i = b.value i

theorem Rearranged.symm {a b : Expr} (same : Rearranged a b) : Rearranged b a :=
  fun A i commutes => (same A i commutes).symm

theorem Rearranged.trans {a b c : Expr} (first : Rearranged a b) (second : Rearranged b c) :
    Rearranged a c :=
  fun A i commutes => (first A i commutes).trans (second A i commutes)

instance countableStrings : Countable String := by
  have injective : Function.Injective fun s : String => s.toList.map Char.toNat := by
    intro s t same
    refine String.toList_injective ((List.map_injective_iff.2 fun c d eq => ?_) same)
    exact Char.toNat_inj.1 eq
  exact injective.countable

inductive Unordered where
  | const (n : Int)
  | var (name : String)
  | neg (arg : Nat)
  | sub (left right : Nat)
  | div (left right : Nat)
  | sum (parts : Multiset Nat)
  | product (parts : Multiset Nat)
  deriving Countable

namespace Unordered

noncomputable def code : Unordered → Nat :=
  (Countable.exists_injective_nat Unordered).choose

theorem codeInjective : Function.Injective code :=
  (Countable.exists_injective_nat Unordered).choose_spec

def root? : Unordered → Option AssocOp
  | .sum _ => some .add
  | .product _ => some .mul
  | _ => none

def gather : AssocOp → Multiset Nat → Unordered
  | .add => .sum
  | .mul => .product

noncomputable def parts (op : AssocOp) (x : Unordered) : Multiset Nat :=
  match op, x with
  | .add, .sum parts => parts
  | .mul, .product parts => parts
  | _, x => {x.code}

theorem partsGather (op : AssocOp) (codes : Multiset Nat) : (gather op codes).parts op = codes := by
  cases op <;> rfl

theorem gatherInjective {op : AssocOp} {xs ys : Multiset Nat} (same : gather op xs = gather op ys) :
    xs = ys := by
  have parts := congrArg (Unordered.parts op) same
  rwa [partsGather, partsGather] at parts

noncomputable def interpretation : Interpretation Unordered where
  const := .const
  var := .var
  neg x := .neg x.code
  bin
    | .add => fun x y => gather .add (x.parts .add + y.parts .add)
    | .sub => fun x y => .sub x.code y.code
    | .mul => fun x y => gather .mul (x.parts .mul + y.parts .mul)
    | .div => fun x y => .div x.code y.code
  assoc
    | .add => fun _ _ _ => congrArg (gather .add) (add_assoc _ _ _)
    | .mul => fun _ _ _ => congrArg (gather .mul) (add_assoc _ _ _)

theorem commutative : interpretation.Commutative
  | .add => fun _ _ => congrArg (gather .add) (add_comm _ _)
  | .mul => fun _ _ => congrArg (gather .mul) (add_comm _ _)

theorem binEq (op : AssocOp) (x y : Unordered) :
    interpretation.bin op.bin x y = gather op (x.parts op + y.parts op) := by
  cases op <;> rfl

theorem binInjective {op op' : BinOp} (other : op.assoc? = none) (other' : op'.assoc? = none)
    {x y x' y' : Unordered}
    (same : interpretation.bin op x y = interpretation.bin op' x' y') :
    op = op' ∧ x = x' ∧ y = y' := by
  have split : ∀ {m n m' n' : Unordered}, m.code = m'.code ∧ n.code = n'.code → m = m' ∧ n = n' :=
    fun codes => ⟨codeInjective codes.1, codeInjective codes.2⟩
  cases op with
  | sub =>
    cases op' with
    | sub => exact ⟨rfl, split (Unordered.sub.inj same)⟩
    | div => cases same
    | _ => cases other'
  | div =>
    cases op' with
    | div => exact ⟨rfl, split (Unordered.div.inj same)⟩
    | sub => cases same
    | _ => cases other'
  | _ => cases other

end Unordered

namespace Expr

open Normalize

noncomputable def unordered (e : Expr) : Unordered := e.value Unordered.interpretation

theorem unorderedFlat (op : AssocOp) (first second : Expr) (rest : List Expr) :
    (Expr.flat op first second rest).unordered =
      .gather op ((first :: second :: rest).map fun e => e.unordered.parts op).sum := by
  have gathers : ∀ (rest : List Expr) (codes : Multiset Nat),
      Unordered.interpretation.chain op (.gather op codes) (rest.map Expr.unordered) =
        .gather op (codes + (rest.map fun e => e.unordered.parts op).sum) := by
    intro rest
    induction rest with
    | nil => exact fun codes => congrArg (Unordered.gather op) (add_zero codes).symm
    | cons e rest ih =>
      intro codes
      have joined := Unordered.binEq op (.gather op codes) e.unordered
      rw [Unordered.partsGather] at joined
      simp only [List.map_cons, List.sum_cons, Interpretation.chain, List.foldl_cons]
      rw [joined, ← add_assoc]
      exact ih _
  have joined := Unordered.binEq op first.unordered second.unordered
  simp only [List.map_cons, List.sum_cons]
  rw [← add_assoc, ← gathers, ← joined, unordered, valueFlat]
  rfl

theorem unorderedRoot (e : Expr) : e.unordered.root? = rootOp? e := by
  cases e with
  | bin op _ _ => cases op <;> rfl
  | flat op _ _ _ => rw [unorderedFlat]; cases op <;> rfl
  | _ => rfl

theorem rootsAgree {a b : Expr} (same : a.unordered = b.unordered) : rootOp? a = rootOp? b := by
  rw [← unorderedRoot, same, unorderedRoot]

end Expr

theorem permDetermined {α : Type u} {δ : Type x} {β : Type v} {γ : Type w} {f : α → β} {k : δ → β}
    {g : α → γ} {h : δ → γ} {xs : List α} {ys : List δ} (perm : (xs.map f).Perm (ys.map k))
    (determined : ∀ x ∈ xs, ∀ y ∈ ys, f x = k y → g x = h y) : (xs.map g).Perm (ys.map h) := by
  induction xs generalizing ys with
  | nil =>
    have none : ys = [] := List.map_eq_nil_iff.1 perm.symm.eq_nil
    rw [none]
    exact .nil
  | cons x xs ih =>
    have member : f x ∈ ys.map k := perm.mem_iff.1 (by simp)
    obtain ⟨y, mem, same⟩ := List.mem_map.1 member
    have head := determined x (by simp) y mem same.symm
    obtain ⟨front, back, rfl⟩ := List.append_of_mem mem
    have shorter : (xs.map f).Perm ((front ++ back).map k) := by
      rw [List.map_append, List.map_cons, List.map_cons, same] at perm
      rw [List.map_append]
      exact (perm.trans List.perm_middle).cons_inv
    have tail := ih shorter fun a memA b memB => by
      refine determined a (List.mem_cons_of_mem _ memA) b ?_
      rcases List.mem_append.1 memB with memB | memB
      · exact List.mem_append_left _ memB
      · exact List.mem_append_right _ (List.mem_cons_of_mem _ memB)
    rw [List.map_cons, List.map_append, List.map_cons, head]
    rw [List.map_append] at tail
    exact (tail.cons _).trans List.perm_middle.symm

theorem permOfMapPerm {α : Type u} {β : Type v} {f : α → β} {xs ys : List α}
    (perm : (xs.map f).Perm (ys.map f))
    (injective : ∀ x ∈ xs, ∀ y ∈ ys, f x = f y → x = y) : xs.Perm ys := by
  have kept := permDetermined (g := id) (h := id) perm injective
  rwa [List.map_id, List.map_id] at kept

namespace Normalize

open ArithEquiv.Expr

variable {hash : NodeHash}

theorem partsApart {op : AssocOp} {e : Expr} (flattened : Flattened e) (apart : rootOp? e ≠ some op) :
    e.unordered.parts op = {e.unordered.code} := by
  cases flattened with
  | const n => cases op <;> rfl
  | var name => cases op <;> rfl
  | neg _ => cases op <;> rfl
  | @bin inner _ _ other _ _ => cases inner <;> cases op <;> first | rfl | cases other
  | @flat inner first second rest _ _ =>
    have differ : inner ≠ op := fun same => apart (congrArg some same)
    rw [unorderedFlat]
    cases inner <;> cases op <;> first | rfl | exact absurd rfl differ

theorem codesOfOperands {op : AssocOp} {es : List Expr} (each : ∀ e ∈ es, Flattened e)
    (apart : ∀ e ∈ es, rootOp? e ≠ some op) :
    (es.map fun e => e.unordered.parts op).sum = (es.map fun e => e.unordered.code : List Nat) := by
  induction es with
  | nil => rfl
  | cons e rest ih =>
    rw [List.map_cons, List.sum_cons, partsApart (each e (by simp)) (apart e (by simp)),
      ih (fun t mem => each t (by simp [mem])) fun t mem => apart t (by simp [mem])]
    rfl

structure Settled (hash : NodeHash) (e : Expr) : Prop where
  flattened : Flattened e
  ordered : ∀ op, AllInOrder hash op e

def ApartIn (hash : NodeHash) (a b : Expr) : Prop :=
  ∀ op, NoCollisions hash (a.operandsOf op ++ b.operandsOf op)

theorem ApartIn.parts {a b x y : Expr} (apart : ApartIn hash a b)
    (onA : ∀ op, ∀ e ∈ x.operandsOf op, e ∈ a.operandsOf op)
    (onB : ∀ op, ∀ e ∈ y.operandsOf op, e ∈ b.operandsOf op) : ApartIn hash x y := by
  intro op
  refine (apart op).part fun e mem => ?_
  rcases List.mem_append.1 mem with mem | mem
  · exact List.mem_append_left _ (onA op e mem)
  · exact List.mem_append_right _ (onB op e mem)

theorem ApartIn.left {op op' : BinOp} {x y x' y' : Expr}
    (apart : ApartIn hash (.bin op x y) (.bin op' x' y')) : ApartIn hash x x' :=
  apart.parts (fun _ _ mem => List.mem_append_left _ (List.mem_append_right _ mem))
    fun _ _ mem => List.mem_append_left _ (List.mem_append_right _ mem)

theorem ApartIn.right {op op' : BinOp} {x y x' y' : Expr}
    (apart : ApartIn hash (.bin op x y) (.bin op' x' y')) : ApartIn hash y y' :=
  apart.parts (fun _ _ => List.mem_append_right _) fun _ _ => List.mem_append_right _

theorem settledNeg {arg : Expr} (settled : Settled hash (.neg arg)) : Settled hash arg := by
  refine ⟨?_, fun op => ?_⟩
  · cases settled.flattened with
    | neg inner => exact inner
  · cases settled.ordered op with
    | neg inner => exact inner

theorem settledBin {op : BinOp} {left right : Expr} (settled : Settled hash (.bin op left right)) :
    op.assoc? = none ∧ Settled hash left ∧ Settled hash right := by
  obtain ⟨flattened, ordered⟩ := settled
  cases flattened with
  | bin other onLeft onRight =>
    refine ⟨other, ⟨onLeft, fun op => ?_⟩, ⟨onRight, fun op => ?_⟩⟩
    · cases ordered op with
      | bin _ onLeft _ => exact onLeft
    · cases ordered op with
      | bin _ _ onRight => exact onRight

theorem settledOperand {op : AssocOp} {first second : Expr} {rest : List Expr}
    (settled : Settled hash (.flat op first second rest)) :
    ∀ e ∈ first :: second :: rest, Settled hash e ∧ rootOp? e ≠ some op := by
  intro e mem
  obtain ⟨flattened, ordered⟩ := settled
  cases flattened with
  | flat each apart =>
    refine ⟨⟨each e mem, fun op' => ?_⟩, apart e mem⟩
    cases ordered op' with
    | flat _ each => exact each e mem

theorem operandsOfOperand {op inner : AssocOp} {first second e t : Expr} {rest : List Expr}
    (mem : e ∈ first :: second :: rest) (inside : t ∈ e.operandsOf op) :
    t ∈ (Expr.flat inner first second rest).operandsOf op := by
  rw [operandsOfFlat]
  exact List.mem_append_right _ (operandsOfPart mem inside)

theorem operandsOfRoot {op : AssocOp} {first second e : Expr} {rest : List Expr}
    (mem : e ∈ first :: second :: rest) : e ∈ (Expr.flat op first second rest).operandsOf op := by
  rw [operandsOfFlat, if_pos rfl]
  exact List.mem_append_left _ mem

theorem ApartIn.operands {op op' : AssocOp} {x y x' y' e e' : Expr} {xs xs' : List Expr}
    (apart : ApartIn hash (.flat op x y xs) (.flat op' x' y' xs')) (mem : e ∈ x :: y :: xs)
    (mem' : e' ∈ x' :: y' :: xs') : ApartIn hash e e' :=
  apart.parts (fun _ _ => operandsOfOperand mem) fun _ _ => operandsOfOperand mem'

theorem sortedUnique {xs ys : List Expr} (same : xs.Perm ys)
    (apart : NoCollisions hash (xs ++ ys)) (sortedX : xs.Pairwise fun a b => before hash a b)
    (sortedY : ys.Pairwise fun a b => before hash a b) : xs = ys := by
  refine List.Perm.eq_of_pairwise (fun a b memA memB first second => ?_) sortedX sortedY same
  refine apart a (List.mem_append_left _ memA) b (List.mem_append_right _ memB) ?_
  have h := (Digest.leIff _ _).1 first
  have g := (Digest.leIff _ _).1 second
  exact Digest.toNatInj (Nat.le_antisymm h g)

theorem operandsUnordered {op : AssocOp} {x y x' y' : Expr} {xs xs' : List Expr}
    (flattened : Flattened (.flat op x y xs)) (flattened' : Flattened (.flat op x' y' xs'))
    (same : (Expr.flat op x y xs).unordered = (Expr.flat op x' y' xs').unordered) :
    ((x :: y :: xs).map Expr.unordered).Perm ((x' :: y' :: xs').map Expr.unordered) := by
  rw [unorderedFlat, unorderedFlat] at same
  have codes := Unordered.gatherInjective same
  cases flattened with
  | flat each apart =>
    cases flattened' with
    | flat each' apart' =>
      rw [codesOfOperands each apart, codesOfOperands each' apart', Multiset.coe_eq_coe] at codes
      exact permDetermined codes fun _ _ _ _ code => Unordered.codeInjective code

theorem settledFlatUnique {op : AssocOp} {x y x' y' : Expr} {xs xs' : List Expr}
    (settled : Settled hash (.flat op x y xs)) (settled' : Settled hash (.flat op x' y' xs'))
    (apart : ApartIn hash (.flat op x y xs) (.flat op x' y' xs'))
    (each : ∀ e ∈ x :: y :: xs, ∀ e' ∈ x' :: y' :: xs', e.unordered = e'.unordered → e = e')
    (same : (Expr.flat op x y xs).unordered = (Expr.flat op x' y' xs').unordered) :
    Expr.flat op x y xs = .flat op x' y' xs' := by
  have perm : (x :: y :: xs).Perm (x' :: y' :: xs') :=
    permOfMapPerm (operandsUnordered settled.flattened settled'.flattened same) each
  have sorted : (x :: y :: xs).Pairwise fun a b => before hash a b := by
    cases settled.ordered op with
    | flat sorted _ => exact sorted trivial rfl
  have sorted' : (x' :: y' :: xs').Pairwise fun a b => before hash a b := by
    cases settled'.ordered op with
    | flat sorted _ => exact sorted trivial rfl
  have lists := sortedUnique perm ((apart op).part fun e mem => ?_) sorted sorted'
  · cases lists
    rfl
  · rcases List.mem_append.1 mem with mem | mem
    · exact List.mem_append_left _ (operandsOfRoot mem)
    · exact List.mem_append_right _ (operandsOfRoot mem)

/- Two flattened trees that are the same but for order have the same root, and below it the same
but for order: what is kept by every kind of node holds of the two. -/
theorem unorderedInduction {P : Expr → Expr → Prop}
    (const : ∀ n, P (.const n) (.const n))
    (var : ∀ name, P (.var name) (.var name))
    (neg : ∀ {a b}, P a b → P (.neg a) (.neg b))
    (bin : ∀ {op left right left' right'}, op.assoc? = none → P left left' → P right right' →
      P (.bin op left right) (.bin op left' right'))
    (flat : ∀ {op x y xs x' y' xs'}, Flattened (.flat op x y xs) → Flattened (.flat op x' y' xs') →
      (Expr.flat op x y xs).unordered = (Expr.flat op x' y' xs').unordered →
      (∀ e ∈ x :: y :: xs, ∀ e' ∈ x' :: y' :: xs', e.unordered = e'.unordered → P e e') →
      P (.flat op x y xs) (.flat op x' y' xs'))
    {a b : Expr} (flattenedA : Flattened a) (flattenedB : Flattened b)
    (same : a.unordered = b.unordered) : P a b := by
  have roots := rootsAgree same
  induction a using Expr.byArgs generalizing b with
  | const n =>
    cases b with
    | const m => cases same; exact const n
    | bin op _ _ => cases op <;> cases same
    | flat op _ _ _ => cases roots
    | _ => cases same
  | var name =>
    cases b with
    | var other => cases same; exact var name
    | bin op _ _ => cases op <;> cases same
    | flat op _ _ _ => cases roots
    | _ => cases same
  | neg arg ih =>
    cases b with
    | neg other =>
      have inner : arg.unordered = other.unordered :=
        Unordered.codeInjective (Unordered.neg.inj same)
      cases flattenedA with
      | neg onA =>
        cases flattenedB with
        | neg onB => exact neg (ih onA onB inner (rootsAgree inner))
    | bin op _ _ => cases op <;> cases same
    | flat op _ _ _ => cases roots
    | _ => cases same
  | bin op left right ihl ihr =>
    cases flattenedA with
    | bin other onLeft onRight =>
      cases b with
      | bin op' left' right' =>
        cases flattenedB with
        | bin other' onLeft' onRight' =>
          obtain ⟨rfl, lefts, rights⟩ := Unordered.binInjective other other' same
          exact bin other (ihl onLeft onLeft' lefts (rootsAgree lefts))
            (ihr onRight onRight' rights (rootsAgree rights))
      | flat op' _ _ _ =>
        rw [rootOp?, other] at roots
        cases roots
      | _ => cases op <;> cases same
  | flat op first second rest ih =>
    cases b with
    | flat op' first' second' rest' =>
      obtain rfl : op = op' := Option.some.inj roots
      refine flat flattenedA flattenedB same fun e mem e' mem' inner => ?_
      cases flattenedA with
      | flat onA _ =>
        cases flattenedB with
        | flat onB _ => exact ih e mem (onA e mem) (onB e' mem') inner (rootsAgree inner)
    | bin op' left right =>
      cases flattenedB with
      | bin other _ _ =>
        rw [rootOp?, rootOp?, other] at roots
        cases roots
    | _ => cases roots

theorem unorderedInjective {a b : Expr} (settledA : Settled hash a) (settledB : Settled hash b)
    (apart : ApartIn hash a b) (same : a.unordered = b.unordered) : a = b := by
  refine unorderedInduction (P := fun a b => Settled hash a → Settled hash b → ApartIn hash a b →
    a = b) ?_ ?_ ?_ ?_ ?_ settledA.flattened settledB.flattened same settledA settledB apart
  · exact fun _ _ _ _ => rfl
  · exact fun _ _ _ _ => rfl
  · intro arg other inner onA onB apart
    rw [inner (settledNeg onA) (settledNeg onB)
      (apart.parts (fun _ _ mem => mem) fun _ _ mem => mem)]
  · intro op left right left' right' _ lefts rights onA onB apart
    obtain ⟨_, onLeft, onRight⟩ := settledBin onA
    obtain ⟨_, onLeft', onRight'⟩ := settledBin onB
    rw [lefts onLeft onLeft' apart.left, rights onRight onRight' apart.right]
  · intro op x y xs x' y' xs' _ _ same each onA onB apart
    refine settledFlatUnique onA onB apart (fun e mem e' mem' inner => ?_) same
    exact each e mem e' mem' inner (settledOperand onA e mem).1 (settledOperand onB e' mem').1
      (apart.operands mem mem')

theorem unorderedRearranged {a b : Expr} (flattenedA : Flattened a) (flattenedB : Flattened b)
    (same : a.unordered = b.unordered) : Rearranged a b := by
  refine unorderedInduction (P := Rearranged) ?_ ?_ ?_ ?_ ?_ flattenedA flattenedB same
  · exact fun _ _ _ _ => rfl
  · exact fun _ _ _ _ => rfl
  · exact fun inner A i commutes => congrArg i.neg (inner A i commutes)
  · exact fun _ lefts rights A i commutes =>
      congrArg₂ (i.bin _) (lefts A i commutes) (rights A i commutes)
  · intro op x y xs x' y' xs' flattened flattened' same each A i commutes
    have perm := operandsUnordered flattened flattened' same
    have values := permDetermined (g := value i) (h := value i) perm
      fun e mem e' mem' inner => each e mem e' mem' inner A i commutes
    refine WithOne.coe_injective ?_
    rw [totalFlat, totalFlat, Interpretation.totalPerm commutes op values]

theorem settledUnique {a b : Expr} (settledA : Settled hash a) (settledB : Settled hash b)
    (apart : ApartIn hash a b) (same : Rearranged a b) : a = b :=
  unorderedInjective settledA settledB apart
    (same Unordered Unordered.interpretation Unordered.commutative)

section Runs

variable {settings : Settings} {e o r r' a b : Expr}

theorem orderOperandsFlattened (run : orderOperands settings e = .ok o) (flattened : Flattened e) :
    Flattened o := by
  refine fixedPointKeeps (fun {b c} before stepped => ?_) run flattened
  obtain ⟨sums, first, second⟩ := bindOk.1 stepped
  rw [orderProductsRun second, orderSumsRun first]
  exact (orderFlattened _ _ (orderFlattened _ _ before).1).1

theorem orderOperandsSettled (run : orderOperands settings e = .ok o) (flattened : Flattened e) :
    Settled settings.hash o := by
  obtain ⟨sums, products⟩ := orderOperandsInOrder run
  refine ⟨orderOperandsFlattened run flattened, fun op => ?_⟩
  cases op with
  | add => exact sums
  | mul => exact products

theorem orderOperandsRearranged (run : orderOperands settings e = .ok o) : Rearranged o e :=
  fun _ _ commutes => orderOperandsValue commutes run

theorem sweptOperands {op : AssocOp} (ordered : AllInOrder settings.hash op o) :
    ∀ t ∈ o.operandsOf op, t ∈ sortedBySweeps settings op o := by
  intro t mem
  refine List.mem_flatMap.2 ⟨o, trailStart settings _ o, ?_⟩
  rwa [orderOnceFixed ordered]

theorem operandsSorted (run : orderOperands settings e = .ok o) (op : AssocOp) :
    ∀ t ∈ o.operandsOf op, t ∈ sortedInTurn settings e := by
  intro t mem
  obtain ⟨inSums, inProducts⟩ := orderOperandsInOrder run
  obtain ⟨sums, first, _⟩ := bindOk.1 (fixedPointStable run)
  obtain rfl : sums = o := (orderSumsRun first).trans (orderOnceFixed inSums)
  refine List.mem_flatMap.2 ⟨sums, trailEnd run, ?_⟩
  rw [first]
  cases op with
  | add => exact List.mem_append_left _ (sweptOperands inSums t mem)
  | mul => exact List.mem_append_right _ (sweptOperands inProducts t mem)

theorem orderOperandsUnique (runA : orderOperands settings a = .ok r)
    (runB : orderOperands settings b = .ok r') (flattenedA : Flattened a)
    (flattenedB : Flattened b) (same : Rearranged a b)
    (apart : NoCollisions settings.hash (sortedInTurn settings a ++ sortedInTurn settings b)) :
    r = r' := by
  refine settledUnique (orderOperandsSettled runA flattenedA) (orderOperandsSettled runB flattenedB)
    (fun op => apart.part fun t mem => ?_)
    ((orderOperandsRearranged runA).trans (same.trans (orderOperandsRearranged runB).symm))
  rcases List.mem_append.1 mem with mem | mem
  · exact List.mem_append_left _ (operandsSorted runA op t mem)
  · exact List.mem_append_right _ (operandsSorted runB op t mem)

theorem restructuredOk (run : restructured settings e = .ok r) :
    ∃ combined o, folded settings (flattenOnce e) = .ok combined ∧
      orderOperands settings combined = .ok o ∧ r = unflattenOnce o ∧
      sortedRestructuring settings e = sortedInTurn settings combined := by
  obtain ⟨flat, flattened, run⟩ := bindOk.1 run
  obtain ⟨combined, folds, run⟩ := bindOk.1 run
  obtain ⟨o, ordered, last⟩ := bindOk.1 run
  have sorted : sortedRestructuring settings e = sortedInTurn settings combined := by
    rw [sortedRestructuring, flattened, fromResult, folds, fromResult]
  obtain rfl := flattenRun flattened
  exact ⟨combined, o, folds, ordered, unflattenRun last, sorted⟩

theorem foldedExpand (expand : settings.constants = .expand) (e : Expr) :
    folded settings e = .ok e := by
  unfold folded
  rw [expand]

end Runs

end Normalize

end ArithEquiv
