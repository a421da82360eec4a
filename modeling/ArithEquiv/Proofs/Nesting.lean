import ArithEquiv.Proofs.Iteration
import ArithEquiv.Proofs.Resorting
import ArithEquiv.Proofs.Sizes
import Mathlib.Data.List.MinMax

/-! How often sums and products have to be ordered in turn. Once the operands of a call are in order
themselves their digests stay, and one more round puts the call in order. So there are as many rounds
as sums and products lie inside one another, and then one that moves nothing. What a round changes is
the order of operands and nothing else, so that no tree on the way is larger than the first. -/
namespace ArithEquiv

namespace Node

def level {α : Type u} : Node α → Nat
  | .bin op _ _ => if op.assoc?.isSome then 1 else 0
  | .flat _ _ => 1
  | _ => 0

end Node

namespace Expr

def layers (e : Expr) : Nat := e.fold fun n => n.level + n.children.foldr max 0

theorem layersEq (e : Expr) :
    e.layers = e.node.level + (e.children.map layers).foldr max 0 := by
  cases e with
  | const n => exact foldConst _ n
  | var name => exact foldVar _ name
  | neg arg => exact foldNeg _ arg
  | bin op left right => exact foldBin _ op left right
  | flat op first second rest => exact foldFlat _ op first second rest

theorem layersChild {e c : Expr} (mem : c ∈ e.children) : e.node.level + c.layers ≤ e.layers := by
  rw [layersEq e]
  exact Nat.add_le_add_left
    (List.le_max_of_le' 0 (List.mem_map_of_mem (f := layers) mem) (Nat.le_refl _)) _

theorem byChildren {P : Expr → Prop} (each : ∀ e, (∀ c ∈ e.children, P c) → P e) (e : Expr) : P e := by
  induction e using Expr.byArgs with
  | const n => exact each _ nofun
  | var name => exact each _ nofun
  | neg arg ih => exact each _ (List.forall_mem_singleton.2 ih)
  | bin op left right ihl ihr =>
    exact each _ (List.forall_mem_cons.2 ⟨ihl, List.forall_mem_singleton.2 ihr⟩)
  | flat op first second rest ih => exact each _ ih

end Expr

inductive Shuffled : Expr → Expr → Prop where
  | refl (e : Expr) : Shuffled e e
  | trans {a b c : Expr} (first : Shuffled a b) (second : Shuffled b c) : Shuffled a c
  | neg {a b : Expr} (inner : Shuffled a b) : Shuffled (.neg a) (.neg b)
  | bin {op : BinOp} {l l' r r' : Expr} (onLeft : Shuffled l l') (onRight : Shuffled r r') :
      Shuffled (.bin op l r) (.bin op l' r')
  | swap (op : AssocOp) (left right : Expr) :
      Shuffled (.bin op.bin left right) (.bin op.bin right left)
  | operand (op : AssocOp) (before after : List Expr) {a b : Expr} (inner : Shuffled a b) :
      Shuffled (.join op (before ++ a :: after)) (.join op (before ++ b :: after))
  | perm (op : AssocOp) {es es' : List Expr} (moved : es.Perm es') :
      Shuffled (.join op es) (.join op es')

namespace Shuffled

theorem each (op : AssocOp) {g : Expr → Expr} {es : List Expr}
    (each : ∀ e ∈ es, Shuffled e (g e)) : Shuffled (.join op es) (.join op (es.map g)) := by
  have upTo : ∀ (after before : List Expr), (∀ e ∈ after, Shuffled e (g e)) →
      Shuffled (.join op (before ++ after)) (.join op (before ++ after.map g)) := by
    intro after
    induction after with
    | nil => exact fun _ _ => .refl _
    | cons e after ih =>
      intro before inner
      have here := Shuffled.operand op before after (inner e List.mem_cons_self)
      have others := ih (before ++ [g e]) fun t mem => inner t (List.mem_cons_of_mem e mem)
      rw [List.append_assoc, List.append_assoc] at others
      exact here.trans others
  exact upTo es [] each

theorem sizeJoin (op : AssocOp) {es es' : List Expr} (length : es.length = es'.length)
    (sizes : Expr.sizes es = Expr.sizes es') : (Expr.join op es).size = (Expr.join op es').size := by
  match es, es', length with
  | [], [], _ => rfl
  | [a], [b], _ => simpa only [Expr.sizes, Expr.join, Nat.add_zero] using sizes
  | a :: b :: rest, a' :: b' :: rest', _ =>
    simp only [Expr.sizes] at sizes
    simp only [Expr.join, Expr.size]
    omega

theorem size {e r : Expr} (same : Shuffled e r) : e.size = r.size := by
  induction same with
  | refl e => rfl
  | trans _ _ ihf ihs => exact ihf.trans ihs
  | neg _ ih => simp only [Expr.size, ih]
  | bin _ _ ihl ihr => simp only [Expr.size, ihl, ihr]
  | swap op left right => simp only [Expr.size]; omega
  | operand op before after _ ih =>
    refine sizeJoin op (by simp only [List.length_append, List.length_cons]) ?_
    simp only [Expr.sizesAppend, Expr.sizes, ih]
  | perm op moved =>
    refine sizeJoin op moved.length_eq ?_
    rw [Expr.sizesEqSum, Expr.sizesEqSum, (moved.map Expr.size).sum_eq]

end Shuffled

namespace Normalize

open ArithEquiv.Expr

section Shuffling

variable (hash : NodeHash) (op : AssocOp)

theorem orderOnceShuffled (e : Expr) : Shuffled e (orderOnce hash op e) := by
  induction e using Expr.byArgs with
  | const n => rw [orderConst]; exact .refl _
  | var name => rw [orderVar]; exact .refl _
  | neg arg ih => rw [orderNeg]; exact .neg ih
  | bin inner left right ihl ihr =>
    rw [orderBin]
    dsimp only
    split
    · rename_i turned
      rw [turned.1]
      exact (Shuffled.bin ihl ihr).trans (.swap op _ _)
    · exact .bin ihl ihr
  | flat inner first second rest ih =>
    rw [orderFlat]
    dsimp only
    refine (Shuffled.each inner ih).trans (.perm inner ?_)
    split
    · rw [Sorting.sortEqMergeSort]
      exact (List.mergeSort_perm _ _).symm
    · exact .refl _

theorem orderBothShuffled (e : Expr) : Shuffled e (orderBoth hash e) :=
  (orderOnceShuffled hash .add e).trans (orderOnceShuffled hash .mul _)

theorem roundsShuffled (k : Nat) (e : Expr) : Shuffled e ((orderBoth hash)^[k] e) := by
  induction k with
  | zero => exact .refl e
  | succ k ih =>
    rw [Function.iterate_succ_apply']
    exact ih.trans (orderBothShuffled hash _)

end Shuffling

section Rounds

variable (hash : NodeHash) {op : AssocOp} {e : Expr}

structure Moves (g : Expr → Expr) (e : Expr) : Prop where
  level : (g e).node.level = e.node.level
  children : (g e).children.Perm (e.children.map g)

theorem movesJoin {g : Expr → Expr} {first second : Expr} {rest es : List Expr}
    (built : g (.flat op first second rest) = .join op es)
    (perm : es.Perm ((first :: second :: rest).map g)) : Moves g (.flat op first second rest) := by
  match es, perm.length_eq with
  | a :: b :: more, _ => exact ⟨by rw [built]; rfl, by rw [built]; exact perm⟩

theorem orderMoves (op : AssocOp) (e : Expr) : Moves (orderOnce hash op) e := by
  cases e with
  | const n => exact ⟨by rw [orderConst], by rw [orderConst]; exact .refl _⟩
  | var name => exact ⟨by rw [orderVar], by rw [orderVar]; exact .refl _⟩
  | neg arg => exact ⟨by rw [orderNeg]; rfl, by rw [orderNeg]; exact .refl _⟩
  | bin inner left right =>
    have built := orderBin hash op inner left right
    dsimp only at built
    split at built
    · exact ⟨by rw [built]; rfl, by rw [built]; exact .swap _ _ _⟩
    · exact ⟨by rw [built]; rfl, by rw [built]; exact .refl _⟩
  | flat inner first second rest =>
    refine movesJoin (orderFlat hash op inner first second rest) ?_
    split
    · rw [Sorting.sortEqMergeSort]
      exact List.mergeSort_perm _ _
    · exact .refl _

theorem Moves.comp {g h : Expr → Expr} (later : Moves h (g e)) (earlier : Moves g e) :
    Moves (h ∘ g) e where
  level := later.level.trans earlier.level
  children := by
    rw [← List.map_map]
    exact later.children.trans (earlier.children.map h)

theorem roundsMove (k : Nat) (e : Expr) : Moves (orderBoth hash)^[k] e := by
  induction k generalizing e with
  | zero => exact ⟨rfl, by rw [Function.iterate_zero, List.map_id]; exact .refl _⟩
  | succ k ih => exact (ih (orderBoth hash e)).comp ((orderMoves hash .mul _).comp (orderMoves hash .add e))

theorem lighterInOrder {n : Nat} (parts : ∀ c ∈ e.children, AllInOrder hash op c)
    (lighter : n < e.weight) : InOrderUpTo hash op n e := by
  have each : ∀ c ∈ e.children, InOrderUpTo hash op n c := fun c mem =>
    (parts c mem).lookLess fun _ _ _ => trivial
  cases e with
  | const n => exact .const n
  | var name => exact .var name
  | neg arg => exact .neg (each arg List.mem_cons_self)
  | bin inner left right =>
    refine .bin (fun light => absurd light (Nat.not_le.2 lighter)) ?_ ?_
    · exact each left List.mem_cons_self
    · exact each right (List.mem_cons_of_mem _ List.mem_cons_self)
  | flat inner first second rest =>
    exact .flat (fun light => absurd light (Nat.not_le.2 lighter)) each

theorem unchainedInOrder (unchained : e.node.level = 0)
    (parts : ∀ c ∈ e.children, AllInOrder hash op c) : AllInOrder hash op e := by
  cases e with
  | const n => exact .const n
  | var name => exact .var name
  | neg arg => exact .neg (parts arg List.mem_cons_self)
  | bin inner left right =>
    refine .bin (fun _ same => ?_) ?_ ?_
    · rw [same, Expr.node, Node.level, AssocOp.assocBin] at unchained
      cases unchained
    · exact parts left List.mem_cons_self
    · exact parts right (List.mem_cons_of_mem _ List.mem_cons_self)
  | flat inner first second rest => cases unchained

theorem roundInOrder (parts : ∀ op, ∀ c ∈ e.children, AllInOrder hash op c) (op : AssocOp) :
    AllInOrder hash op (orderBoth hash e) := by
  cases op with
  | add =>
    have whole := Nat.succ_pred_eq_of_pos (weightPositive e)
    have lighter : e.weight.pred < e.weight := by omega
    have upTo := inTurnUpTo (lighterInOrder hash (parts .add) lighter)
      (lighterInOrder hash (parts .mul) lighter)
    refine upTo.lookLess fun n bound _ => ?_
    rw [orderWeight, orderWeight] at bound
    omega
  | mul => exact orderOnceInOrder hash .mul _

/- By induction on the tree: the operands of a call that counts are in order one round before it. -/
theorem roundsInOrder (e : Expr) {k : Nat} (enough : e.layers ≤ k) (op : AssocOp) :
    AllInOrder hash op ((orderBoth hash)^[k] e) := by
  induction e using Expr.byChildren generalizing k op with
  | each e ih =>
    have parts : ∀ j, (∀ c ∈ e.children, c.layers ≤ j) → ∀ op,
        ∀ c ∈ ((orderBoth hash)^[j] e).children, AllInOrder hash op c := by
      intro j deep op c mem
      obtain ⟨c', member, rfl⟩ := List.mem_map.1 ((roundsMove hash j e).children.mem_iff.1 mem)
      exact ih c' member (deep c' member) op
    by_cases unchained : e.node.level = 0
    · refine unchainedInOrder hash ((roundsMove hash k e).level.trans unchained) ?_
      refine parts k (fun c mem => ?_) op
      have inner := layersChild mem
      omega
    · obtain ⟨j, rfl⟩ : ∃ j, k = j + 1 := by
        refine Nat.exists_eq_add_one_of_ne_zero fun none => unchained ?_
        have deep := layersEq e
        omega
      rw [Function.iterate_succ_apply']
      refine roundInOrder hash (parts j fun c mem => ?_) op
      have inner := layersChild mem
      omega

theorem orderBothFixed (ordered : ∀ op, AllInOrder hash op e) : orderBoth hash e = e := by
  rw [orderBoth, orderOnceFixed (ordered .add), orderOnceFixed (ordered .mul)]

end Rounds

section Loops

variable {settings : Settings} {pass : String} {e : Expr}

theorem orderedOnce (op : AssocOp) (two : 2 ≤ settings.maxIterations)
    (small : (e.size : Int) ≤ settings.maxNodes) :
    toFixedPoint settings pass (fun t => (pure (orderOnce settings.hash op t) : Except Fault Expr)) e =
      .ok (orderOnce settings.hash op e) := by
  refine fixedPointWithin (n := 1) (orderOnceTwice settings.hash op e) (by omega) fun k some few => ?_
  obtain rfl : k = 1 := by omega
  rw [Function.iterate_one, ← (orderOnceShuffled settings.hash op e).size]
  exact small

theorem orderRound (two : 2 ≤ settings.maxIterations) (small : (e.size : Int) ≤ settings.maxNodes) :
    (orderSums settings e >>= orderProducts settings) = .ok (orderBoth settings.hash e) := by
  refine bindOk.2 ⟨_, orderedOnce .add two small, orderedOnce .mul two ?_⟩
  rw [← (orderOnceShuffled settings.hash .add e).size]
  exact small

theorem orderOperandsPure (two : 2 ≤ settings.maxIterations)
    (small : (e.size : Int) ≤ settings.maxNodes) :
    orderOperands settings e =
      toFixedPoint settings "Canonicalize" (fun t => pure (orderBoth settings.hash t)) e := by
  refine fixedPointAlong (P := fun t => (t.size : Int) ≤ settings.maxNodes)
    (fun t few => orderRound two few) (fun t few => ?_) small
  rw [← (orderBothShuffled settings.hash t).size]
  exact few

theorem orderOperandsSettles (rounds : max 2 ((e.layers : Int) + 1) ≤ settings.maxIterations)
    (small : (e.size : Int) ≤ settings.maxNodes) :
    ∃ r, orderOperands settings e = .ok r ∧ Shuffled e r ∧
      ∀ op, AllInOrder settings.hash op r := by
  have two : 2 ≤ settings.maxIterations := by omega
  have moved := fun k => roundsShuffled settings.hash k e
  have settled := roundsInOrder settings.hash e (Nat.le_refl _)
  refine ⟨(orderBoth settings.hash)^[e.layers] e, ?_, moved _, settled⟩
  rw [orderOperandsPure two small]
  refine fixedPointWithin (orderBothFixed settings.hash settled) (by omega) fun k _ _ => ?_
  rw [← (moved k).size]
  exact small

end Loops

def byFirst : NodeHash
  | .var name => ⟨0, name.length.toUInt64⟩
  | n => n.children.headD ⟨0, 0⟩

/- The sum is ordered anew once the product is. -/
def outrun : Expr := .bin .add (.bin .mul (.var "ccc") (.var "a")) (.var "bb")

def roundsByFirst (n : Int) : Settings := { maxIterations := n, maxNodes := 5, hash := byFirst }

theorem orderOperandsSettlesOutrun :
    (∃ r, orderOperands (roundsByFirst 3) outrun = .ok r ∧ Shuffled outrun r ∧
      ∀ op, AllInOrder byFirst op r) ∧
    orderOperands (roundsByFirst 2) outrun = .error (.diverged "Canonicalize" (.unstable 2)) :=
  ⟨orderOperandsSettles (by decide +kernel) (by decide +kernel), by decide +kernel⟩

end Normalize

end ArithEquiv
