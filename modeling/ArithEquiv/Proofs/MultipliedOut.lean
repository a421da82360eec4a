import ArithEquiv.Proofs.Cancellation
import ArithEquiv.Proofs.Rearrangement
import Mathlib.Algebra.Order.BigOperators.GroupWithZero.List
import Mathlib.Algebra.Order.Ring.Nat

/-! What distribution reaches. Every tree has a mass that no order or grouping changes, that
combining constants does not increase and that multiplying out lowers wherever it applies. A tree
that one round of distribution gives back has therefore nothing left to multiply out. -/
namespace ArithEquiv

def masses : Interpretation Nat where
  const _ := 2
  var _ := 2
  neg x := x + 1
  bin
    | .add => fun x y => x + y + 1
    | .sub => fun x y => x + y + 1
    | .mul => fun x y => x * y
    | .div => fun x y => x * y
  assoc
    | .add => nodeSumsAssociate
    | .mul => Nat.mul_assoc

theorem massesCommute : masses.Commutative
  | .add => fun x y => by show x + y + 1 = y + x + 1; omega
  | .mul => Nat.mul_comm

namespace Expr

open Arithmetic Normalize

def mass (e : Expr) : Nat := e.value masses

theorem massAtLeast (e : Expr) : 2 ≤ e.mass := by
  have products : ∀ x y : Nat, 2 ≤ x → 2 ≤ y → 2 ≤ x * y := by
    intro x y h g
    exact Nat.le_trans h (Nat.le_mul_of_pos_right x (Nat.le_of_succ_le g))
  refine valueHolds masses (fun _ => Nat.le_refl 2) (fun _ => Nat.le_refl 2)
    (fun _ => Nat.le_succ_of_le) ?_ e
  intro op x y h g
  cases op with
  | add => exact Nat.le_succ_of_le (Nat.le_add_right_of_le h)
  | sub => exact Nat.le_succ_of_le (Nat.le_add_right_of_le h)
  | mul => exact products x y h g
  | div => exact products x y h g

/- What an operand adds to a call. A sum has one node less than operands. -/
def portion : AssocOp → Expr → Nat
  | .add, e => e.mass + 1
  | .mul, e => e.mass

def slack : AssocOp → Nat
  | .add => 1
  | .mul => 0

def load (op : AssocOp) (es : List Expr) : Nat := combine op (es.map (portion op))

theorem portionEq (op : AssocOp) (e : Expr) : portion op e = e.mass + slack op := by
  cases op <;> rfl

theorem massFlat (op : AssocOp) (first second : Expr) (rest : List Expr) :
    (Expr.flat op first second rest).mass + slack op = load op (first :: second :: rest) := by
  have chains : ∀ (rest : List Expr) (before : Nat),
      masses.chain op before (rest.map (value masses)) + slack op =
        combineTwo op (before + slack op) (load op rest) := by
    intro rest
    induction rest with
    | nil =>
      intro before
      cases op with
      | add => rfl
      | mul => exact (Nat.mul_one before).symm
    | cons e rest ih =>
      intro before
      refine (ih _).trans ?_
      rw [load, load, List.map_cons, combineCons]
      cases op with
      | add =>
        show before + e.mass + 1 + 1 + _ = before + 1 + (e.mass + 1 + _)
        omega
      | mul => exact Nat.mul_assoc before e.mass _
  rw [mass, valueFlat, chains, ← mass, ← portionEq, load, load, List.map_cons, List.map_cons,
    ← combineCons]
  rfl

theorem massJoin {op : AssocOp} {es : List Expr} (some : es ≠ []) :
    (Expr.join op es).mass + slack op = load op es := by
  match es with
  | [e] => rw [load, List.map_singleton, combineSingle, portionEq]; rfl
  | first :: second :: rest => exact massFlat op first second rest

theorem loadPerm {op : AssocOp} {xs ys : List Expr} (same : xs.Perm ys) :
    load op xs = load op ys :=
  combinePerm op (same.map _)

theorem loadAppend (op : AssocOp) (xs ys : List Expr) :
    load op (xs ++ ys) = combineTwo op (load op xs) (load op ys) := by
  rw [load, List.map_append, combineAppend]
  rfl

theorem loadPositive (es : List Expr) : 0 < load .mul es := by
  refine List.prod_pos fun n mem => ?_
  obtain ⟨e, _, rfl⟩ := List.mem_map.1 mem
  exact Nat.le_of_succ_le (massAtLeast e)

theorem loadPart (op : AssocOp) (xs ys : List Expr) : load op ys ≤ load op (xs ++ ys) := by
  rw [loadAppend]
  cases op with
  | add => exact Nat.le_add_left _ _
  | mul => exact Nat.le_mul_of_pos_left _ (loadPositive xs)

theorem loadCons (op : AssocOp) (e : Expr) (es : List Expr) :
    load op (e :: es) = combineTwo op (e.mass + slack op) (load op es) := by
  rw [load, List.map_cons, combineCons, portionEq]
  rfl

theorem loadGrows {op : AssocOp} {front m n : Nat} (less : m ≤ n) :
    combineTwo op front m ≤ combineTwo op front n := by
  cases op with
  | add => exact Nat.add_le_add_left less front
  | mul => exact Nat.mul_le_mul_left front less

end Expr

namespace Normalize

open ArithEquiv.Expr Arithmetic

theorem splicedLoad (op : AssocOp) (es : List Expr) :
    load op (es.flatMap (spliced op)) = load op es := by
  induction es with
  | nil => rfl
  | cons e rest ih =>
    have one : load op (spliced op e) = load op [e] := by
      unfold spliced
      split
      · split
        · rename_i same
          subst same
          rw [← massFlat, ← massJoin (List.cons_ne_nil _ _)]
          rfl
        · rfl
      · rfl
    rw [List.flatMap_cons, loadAppend, one, ih, ← loadAppend]
    rfl

theorem foldConstantsNodeMass {e r : Expr} (run : foldConstantsNode e = .ok r) :
    r.mass ≤ e.mass := by
  cases e with
  | flat op first second rest =>
    have folds := foldConstantsNodeOk run
    have parts : load op (drawnIn op (first :: second :: rest)) = _ := loadPerm (constsApart _)
    rw [drawnIn, splicedLoad, ← drawnIn, ← massFlat] at parts
    generalize drawnIn op (first :: second :: rest) = es at folds parts
    have lighter : ∀ kept : List Expr, kept ≠ [] →
        load op kept ≤ (Expr.flat op first second rest).mass + slack op →
        (Expr.join op kept).mass ≤ (Expr.flat op first second rest).mass := by
      intro kept some less
      rw [← massJoin some] at less
      omega
    cases folds with
    | zero => exact massAtLeast _
    | identity =>
      cases left : others es with
      | nil => exact massAtLeast _
      | cons e kept =>
        refine lighter (e :: kept) (List.cons_ne_nil _ _) ?_
        rw [parts, left]
        exact loadPart op _ _
    | constant differs =>
      refine lighter _ (List.cons_ne_nil _ _) ?_
      rw [parts]
      cases some : numbers es with
      | nil =>
        rw [some] at differs
        exact absurd (by cases op <;> rfl) differs
      | cons n more =>
        have less := loadPart op (more.map .const) (others es)
        rw [List.map_cons, List.cons_append, loadCons, loadCons]
        exact loadGrows less
  | _ => cases run; exact Nat.le_refl _

theorem leftChainMass {f : Expr → Expr} {F : Nat → Nat} {op : BinOp} (sum : op = .add ∨ op = .sub)
    (each : ∀ t, (f t).mass ≤ F t.mass)
    (spreads : ∀ x y, 2 ≤ x → 2 ≤ y → F x + F y + 1 < F (x + y + 1)) (first : Expr)
    (rest : List Expr) :
    (leftChain op (f first) (rest.map f)).mass ≤ F (leftChain op first rest).mass ∧
      (rest ≠ [] → (leftChain op (f first) (rest.map f)).mass < F (leftChain op first rest).mass) := by
  have joined : ∀ l r : Expr, (Expr.bin op l r).mass = l.mass + r.mass + 1 := by
    rcases sum with rfl | rfl <;> exact fun _ _ => rfl
  suffices h : ∀ start image : Expr, image.mass ≤ F start.mass →
      (leftChain op image (rest.map f)).mass ≤ F (leftChain op start rest).mass ∧
        (rest ≠ [] ∨ image.mass < F start.mass →
          (leftChain op image (rest.map f)).mass < F (leftChain op start rest).mass) by
    have result := h first (f first) (each first)
    exact ⟨result.1, fun some => result.2 (.inl some)⟩
  induction rest with
  | nil =>
    intro start image less
    exact ⟨less, fun strict => strict.resolve_left fun none => none rfl⟩
  | cons next rest ih =>
    intro start image less
    have bound := each next
    have gap := spreads start.mass next.mass (massAtLeast start) (massAtLeast next)
    have strict : (Expr.bin op image (f next)).mass < F (Expr.bin op start next).mass := by
      rw [joined, joined]
      omega
    have result := ih (.bin op start next) (.bin op image (f next)) (Nat.le_of_lt strict)
    exact ⟨result.1, fun _ => result.2 (.inr strict)⟩

def Summands.Proper : Summands → Prop
  | .single _ => True
  | .chain op _ rest => (op = .add ∨ op = .sub) ∧ rest ≠ []

theorem spineProper (op : BinOp) (e : Expr) {after : List Expr} (some : after ≠ []) :
    (Summands.spine op e after).2 ≠ [] := by
  induction e generalizing after with
  | bin inner left right ihl _ =>
    rw [Summands.spine]
    split
    · exact ihl (List.cons_ne_nil _ _)
    · exact some
  | _ => exact some

theorem ofExprProper (e : Expr) : (Summands.ofExpr e).Proper := by
  cases e with
  | bin op left right =>
    cases op with
    | add => exact ⟨.inl rfl, spineProper .add left (List.cons_ne_nil _ _)⟩
    | sub => exact ⟨.inr rfl, spineProper .sub left (List.cons_ne_nil _ _)⟩
    | _ => trivial
  | _ => trivial

theorem summandsMass {f : Expr → Expr} {F : Nat → Nat} {s : Summands} (proper : s.Proper)
    (each : ∀ t, (f t).mass ≤ F t.mass)
    (spreads : ∀ x y, 2 ≤ x → 2 ≤ y → F x + F y + 1 < F (x + y + 1)) :
    (s.map f).join.mass ≤ F s.join.mass ∧
      (s.isSingle = false → (s.map f).join.mass < F s.join.mass) := by
  cases s with
  | single term => exact ⟨each term, fun many => by cases many⟩
  | chain op first rest =>
    have result := leftChainMass proper.1 each spreads first rest
    exact ⟨result.1, fun _ => result.2 proper.2⟩

theorem crossMass {op : BinOp} (product : op = .mul ∨ op = .div) {left right : Summands}
    (properLeft : left.Proper) (properRight : right.Proper)
    (many : left.isSingle = false ∨ right.isSingle = false) :
    (Summands.cross op left right).mass < left.join.mass * right.join.mass := by
  have joined : ∀ l r : Expr, (Expr.bin op l r).mass = l.mass * r.mass := by
    rcases product with rfl | rfl <;> exact fun _ _ => rfl
  have rows := fun l : Expr => summandsMass (f := fun r => .bin op l r)
    (F := fun y => l.mass * y) properRight (fun r => Nat.le_of_eq (joined l r)) fun x y _ _ => by
      have factor := massAtLeast l
      show l.mass * x + l.mass * y + 1 < l.mass * (x + y + 1)
      rw [Nat.mul_add, Nat.mul_add]
      omega
  have columns := summandsMass (f := fun l => (right.map fun r => .bin op l r).join)
    (F := fun x => x * right.join.mass) properLeft (fun l => (rows l).1) fun x y _ _ => by
      have factor := massAtLeast right.join
      show x * right.join.mass + y * right.join.mass + 1 < (x + y + 1) * right.join.mass
      rw [Nat.add_mul, Nat.add_mul]
      omega
  cases left with
  | chain _ _ _ => exact columns.2 rfl
  | single term => exact (rows term).2 (many.resolve_left fun none => by cases none)

inductive MultipliedOut : Expr → Prop where
  | const (n : Int) : MultipliedOut (.const n)
  | var (name : String) : MultipliedOut (.var name)
  | neg {arg : Expr} (inner : MultipliedOut arg) : MultipliedOut (.neg arg)
  | bin {op : BinOp} {left right : Expr}
      (onLeft : op = .mul ∨ op = .div → (Summands.ofExpr left).isSingle = true)
      (onRight : op = .mul → (Summands.ofExpr right).isSingle = true)
      (inLeft : MultipliedOut left) (inRight : MultipliedOut right) :
      MultipliedOut (.bin op left right)
  | flat {op : AssocOp} {first second : Expr} {rest : List Expr}
      (each : ∀ e ∈ first :: second :: rest, MultipliedOut e) :
      MultipliedOut (.flat op first second rest)

theorem distributeNodeMass {settings : Settings} {op : BinOp} {left right r : Expr}
    (run : distributeNode settings (.bin op left right) = .ok r) :
    r.mass < (Expr.bin op left right).mass ∨ r = .bin op left right ∧
      (op = .mul ∨ op = .div → (Summands.ofExpr left).isSingle = true) ∧
      (op = .mul → (Summands.ofExpr right).isSingle = true) := by
  have crossed : ∀ {s : Summands}, s.Proper → op = .mul ∨ op = .div → s.join = right →
      (Summands.ofExpr left).isSingle = false ∨ s.isSingle = false →
      multiplyOut settings op (Summands.ofExpr left) s = .ok r →
      r.mass < (Expr.bin op left right).mass := by
    intro s proper product whole many run
    have less := crossMass product (ofExprProper left) proper many
    rw [whole, Summands.joinOfExpr, ← multiplyOutOk run] at less
    rcases product with rfl | rfl <;> exact less
  unfold distributeNode at run
  cases op with
  | mul =>
    dsimp only at run
    split at run
    · rename_i single
      cases run
      rw [Bool.and_eq_true] at single
      exact .inr ⟨rfl, fun _ => single.1, fun _ => single.2⟩
    · rename_i many
      refine .inl (crossed (ofExprProper right) (.inl rfl) (Summands.joinOfExpr right) ?_ run)
      rwa [Bool.and_eq_true, not_and_or, Bool.not_eq_true, Bool.not_eq_true] at many
  | div =>
    dsimp only at run
    split at run
    · rename_i single
      cases run
      exact .inr ⟨rfl, fun _ => single, fun h => by cases h⟩
    · rename_i many
      rw [Bool.not_eq_true] at many
      exact .inl (crossed (s := .single right) trivial (.inr rfl) rfl (.inl many) run)
  | _ =>
    cases run
    refine .inr ⟨rfl, fun h => ?_, fun h => ?_⟩
    · rcases h with h | h <;> cases h
    · cases h

def Lightens (e r : Expr) : Prop := r.mass < e.mass ∨ r = e ∧ MultipliedOut e

theorem Lightens.le {e r : Expr} (lightens : Lightens e r) : r.mass ≤ e.mass := by
  rcases lightens with less | ⟨rfl, _⟩
  · exact Nat.le_of_lt less
  · exact Nat.le_refl _

theorem massBin (op : BinOp) {l r l' r' : Expr} (onLeft : l'.mass ≤ l.mass)
    (onRight : r'.mass ≤ r.mass) :
    (Expr.bin op l' r').mass ≤ (Expr.bin op l r).mass ∧
      (l'.mass < l.mass ∨ r'.mass < r.mass →
        (Expr.bin op l' r').mass < (Expr.bin op l r).mass) := by
  have sums : l'.mass + r'.mass + 1 ≤ l.mass + r.mass + 1 ∧
      (l'.mass < l.mass ∨ r'.mass < r.mass → l'.mass + r'.mass + 1 < l.mass + r.mass + 1) := by
    omega
  have products : l'.mass * r'.mass ≤ l.mass * r.mass ∧
      (l'.mass < l.mass ∨ r'.mass < r.mass → l'.mass * r'.mass < l.mass * r.mass) := by
    refine ⟨Nat.mul_le_mul onLeft onRight, fun strict => ?_⟩
    rcases strict with strict | strict
    · exact Nat.mul_lt_mul_of_lt_of_le strict onRight (by have := massAtLeast r; omega)
    · exact Nat.mul_lt_mul_of_le_of_lt onLeft strict (by have := massAtLeast l; omega)
  cases op with
  | add => exact sums
  | sub => exact sums
  | mul => exact products
  | div => exact products

theorem loadLightens (op : AssocOp) {es rs : List Expr} (each : List.Forall₂ Lightens es rs) :
    load op rs ≤ load op es ∧
      (load op rs < load op es ∨ rs = es ∧ ∀ e ∈ es, MultipliedOut e) := by
  induction each with
  | nil => exact ⟨Nat.le_refl _, .inr ⟨rfl, by simp⟩⟩
  | @cons e r es rs head _ ih =>
    obtain ⟨less, strict⟩ := ih
    have headLess := head.le
    have strictly : r.mass < e.mass ∨ load op rs < load op es →
        load op (r :: rs) < load op (e :: es) := by
      intro either
      rw [loadCons, loadCons]
      cases op with
      | add =>
        simp only [combineTwo, slack]
        omega
      | mul =>
        rcases either with either | either
        · exact Nat.mul_lt_mul_of_lt_of_le either less (loadPositive es)
        · exact Nat.mul_lt_mul_of_le_of_lt headLess either (by have := massAtLeast e; omega)
    have weakly : load op (r :: rs) ≤ load op (e :: es) := by
      rw [loadCons, loadCons]
      cases op with
      | add => exact Nat.add_le_add (Nat.succ_le_succ headLess) less
      | mul => exact Nat.mul_le_mul headLess less
    refine ⟨weakly, ?_⟩
    rcases head with first | ⟨rfl, out⟩
    · exact .inl (strictly (.inl first))
    · rcases strict with later | ⟨rfl, all⟩
      · exact .inl (strictly (.inr later))
      · exact .inr ⟨rfl, List.forall_mem_cons.2 ⟨out, all⟩⟩

theorem distributeLightens {settings : Settings} {e r : Expr}
    (run : e.bottomUpM (distributeNode settings) = .ok r) : Lightens e r := by
  refine bottomUpInduction (P := Lightens) ?_ ?_ ?_ ?_ ?_ run
  · intro n r last
    cases last
    exact .inr ⟨rfl, .const n⟩
  · intro name r last
    cases last
    exact .inr ⟨rfl, .var name⟩
  · intro arg a r worked last
    cases last
    rcases worked with less | ⟨rfl, out⟩
    · exact .inl (Nat.succ_lt_succ less)
    · exact .inr ⟨rfl, .neg out⟩
  · intro op left right l r' r onLeft onRight last
    have whole := massBin op onLeft.le onRight.le
    rcases distributeNodeMass last with less | ⟨rfl, single, singleRight⟩
    · exact .inl (Nat.lt_of_lt_of_le less whole.1)
    · rcases onLeft with less | ⟨rfl, outLeft⟩
      · exact .inl (whole.2 (.inl less))
      rcases onRight with less | ⟨rfl, outRight⟩
      · exact .inl (whole.2 (.inr less))
      exact .inr ⟨rfl, .bin single singleRight outLeft outRight⟩
  · intro op first second rest a b more r worked last
    cases last
    have whole := massFlat op first second rest
    have worked' := massFlat op a b more
    rcases (loadLightens op worked).2 with less | ⟨same, out⟩
    · refine .inl ?_
      omega
    · cases same
      exact .inr ⟨rfl, .flat out⟩

section Runs

variable {settings : Settings} {e r : Expr}

theorem lighterOrSame : masses.Compatible fun m n => n ≤ m where
  refl := Nat.le_refl
  trans h g := Nat.le_trans g h
  neg h := Nat.succ_le_succ h
  bin op _ _ _ _ h g := by
    cases op with
    | add => exact Nat.succ_le_succ (Nat.add_le_add h g)
    | sub => exact Nat.succ_le_succ (Nat.add_le_add h g)
    | mul => exact Nat.mul_le_mul h g
    | div => exact Nat.mul_le_mul h g

theorem foldedMass (run : folded settings e = .ok r) : r.mass ≤ e.mass := by
  unfold folded at run
  split at run
  · refine fixedPointRelated lighterOrSame (fun stepped => ?_) run
    exact lighterOrSame.bottomUpM foldConstantsNodeMass stepped
  · cases run
    exact Nat.le_refl _

theorem restructuredMass (run : restructured settings e = .ok r) : r.mass ≤ e.mass := by
  obtain ⟨combined, o, folds, ordered, rfl, _⟩ := restructuredOk run
  have flat : (flattenOnce e).mass = e.mass := valueFlattenOnce masses e
  have kept : o.mass = combined.mass := orderOperandsValue massesCommute ordered
  have chains : (unflattenOnce o).mass = o.mass := valueUnflattenOnce masses o
  have less := foldedMass folds
  omega

theorem distributedUnflattened (run : distributed settings e = .ok r) : Unflattened r := by
  obtain ⟨chains, _, again⟩ := bindOk.1 (fixedPointStable run)
  obtain ⟨crossed, _, last⟩ := bindOk.1 again
  obtain ⟨_, o, _, _, rfl, _⟩ := restructuredOk last
  exact unflattenOnceUnflattened o

theorem distributedMultipliedOut (run : distributed settings e = .ok r) : MultipliedOut r := by
  have plain := unflattenOnceFixed (distributedUnflattened run)
  obtain ⟨chains, unflattened, again⟩ := bindOk.1 (fixedPointStable run)
  obtain ⟨crossed, multiplied, last⟩ := bindOk.1 again
  obtain rfl : chains = r := (unflattenRun unflattened).trans plain
  have less := restructuredMass last
  rcases distributeLightens multiplied with lighter | ⟨_, out⟩
  · omega
  · exact out

end Runs

end Normalize

end ArithEquiv
