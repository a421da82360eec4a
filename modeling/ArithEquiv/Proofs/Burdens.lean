import ArithEquiv.Proofs.Ordering

/-! Weights to which constants may add a cost. A pass that makes no node heavier, and none as heavy
that it changes, makes the whole tree lighter or leaves it as it is. -/
namespace ArithEquiv

def burdens (cost : Int → Nat) : Interpretation Nat where
  const n := cost n + 1
  var _ := 1
  neg x := x + 1
  bin _ x y := x + y + 1
  assoc _ := nodeSumsAssociate

namespace Expr

def burden (cost : Int → Nat) (e : Expr) : Nat := e.value (burdens cost)

section Parts

variable (cost : Int → Nat)

theorem burdenFlat (op : AssocOp) (first second : Expr) (rest : List Expr) :
    (Expr.flat op first second rest).burden cost + 1 =
      ((first :: second :: rest).map fun e => e.burden cost + 1).sum :=
  flatSum (fun _ _ => rfl) first second rest

theorem burdenJoin {op : AssocOp} {es : List Expr} (some : es ≠ []) :
    (Expr.join op es).burden cost + 1 = (es.map fun e => e.burden cost + 1).sum := by
  match es with
  | [e] => simp [join]
  | first :: second :: rest => exact burdenFlat cost op first second rest

end Parts

variable {cost : Int → Nat}

theorem burdenBound {c : Nat} (small : ∀ n, cost n ≤ c) (e : Expr) :
    e.weight ≤ e.burden cost ∧ e.burden cost ≤ (c + 1) * e.weight := by
  induction e using Expr.byArgs with
  | const n =>
    have one : (Expr.const n).weight = 1 := rfl
    have own : (Expr.const n).burden cost = cost n + 1 := rfl
    have less := small n
    rw [one, own, Nat.mul_one]
    omega
  | var name =>
    have one : (Expr.var name).weight = 1 := rfl
    have own : (Expr.var name).burden cost = 1 := rfl
    rw [one, own, Nat.mul_one]
    omega
  | neg arg ih =>
    have one : (Expr.neg arg).weight = arg.weight + 1 := rfl
    have own : (Expr.neg arg).burden cost = arg.burden cost + 1 := rfl
    rw [one, own, Nat.mul_add]
    omega
  | bin op left right ihl ihr =>
    have one : (Expr.bin op left right).weight = left.weight + right.weight + 1 := rfl
    have own : (Expr.bin op left right).burden cost = left.burden cost + right.burden cost + 1 := rfl
    rw [one, own, Nat.mul_add, Nat.mul_add]
    omega
  | flat op first second rest ih =>
    have sums : ∀ es : List Expr, (∀ e ∈ es, e.weight ≤ e.burden cost ∧
        e.burden cost ≤ (c + 1) * e.weight) →
        (es.map fun e => e.weight + 1).sum ≤ (es.map fun e => e.burden cost + 1).sum ∧
          (es.map fun e => e.burden cost + 1).sum + es.length * c ≤
            (c + 1) * (es.map fun e => e.weight + 1).sum := by
      intro es each
      induction es with
      | nil => simp
      | cons e es rest =>
        have head := each e (by simp)
        have tail := rest fun t mem => each t (by simp [mem])
        simp only [List.map_cons, List.sum_cons, List.length_cons, Nat.mul_add, Nat.add_mul] at *
        omega
    have whole := burdenFlat cost op first second rest
    have plain := weightFlat op first second rest
    have both := sums _ ih
    rw [← whole, ← plain] at both
    have many : c ≤ (first :: second :: rest).length * c :=
      Nat.le_mul_of_pos_left c (Nat.succ_pos _)
    rw [Nat.mul_add] at both
    omega

end Expr

namespace Normalize

open ArithEquiv.Expr

variable {cost : Int → Nat} {g : Expr → Expr}

def Lighter (cost : Int → Nat) (e r : Expr) : Prop :=
  r.burden cost ≤ e.burden cost ∧ (r.burden cost = e.burden cost → r = e)

theorem mapLighter {es : List Expr} (each : ∀ e ∈ es, Lighter cost e (g e)) :
    ((es.map g).map fun e => e.burden cost + 1).sum ≤ (es.map fun e => e.burden cost + 1).sum ∧
      (((es.map g).map fun e => e.burden cost + 1).sum = (es.map fun e => e.burden cost + 1).sum →
        es.map g = es) := by
  induction es with
  | nil => simp
  | cons e rest ih =>
    obtain ⟨less, same⟩ := each e (by simp)
    obtain ⟨lessRest, sameRest⟩ := ih fun t mem => each t (by simp [mem])
    simp only [List.map_cons, List.sum_cons]
    refine ⟨by omega, fun equal => ?_⟩
    rw [same (by omega), sameRest (by omega)]

theorem Lighter.through {e t r : Expr} (first : t.burden cost ≤ e.burden cost)
    (same : t.burden cost = e.burden cost → t = e) (node : Lighter cost t r) : Lighter cost e r :=
  ⟨node.1.trans first, fun equal => (node.2 (le_antisymm node.1 (by omega))).trans
    (same (le_antisymm first (equal ▸ node.1)))⟩

theorem bottomUpLighter (node : ∀ e, Lighter cost e (g e)) (e : Expr) :
    Lighter cost e (e.bottomUp g) := by
  induction e using Expr.byArgs with
  | const n => rw [bottomUpConst]; exact node _
  | var name => rw [bottomUpVar]; exact node _
  | neg arg ih =>
    have own : ∀ t : Expr, (Expr.neg t).burden cost = t.burden cost + 1 := fun _ => rfl
    rw [bottomUpNeg]
    refine .through ?_ (fun equal => ?_) (node _)
    · rw [own, own]
      exact Nat.succ_le_succ ih.1
    · rw [own, own] at equal
      rw [ih.2 (Nat.succ.inj equal)]
  | bin op left right ihl ihr =>
    have own : ∀ l r : Expr, (Expr.bin op l r).burden cost = l.burden cost + r.burden cost + 1 :=
      fun _ _ => rfl
    have onLeft := ihl.1
    have onRight := ihr.1
    rw [bottomUpBin]
    refine .through ?_ (fun equal => ?_) (node _)
    · rw [own, own]
      omega
    · rw [own, own] at equal
      rw [ihl.2 (by omega), ihr.2 (by omega)]
  | flat op first second rest ih =>
    obtain ⟨less, same⟩ := mapLighter ih
    have whole := burdenFlat cost op first second rest
    have swept := burdenFlat cost op (first.bottomUp g) (second.bottomUp g)
      (rest.map (bottomUp g))
    rw [← List.map_cons, ← List.map_cons] at swept
    rw [bottomUpFlat]
    refine .through (by omega) (fun equal => ?_) (node _)
    have operands := same (by omega)
    simp only [List.map_cons, List.cons.injEq] at operands
    rw [operands.1, operands.2.1, operands.2.2]

end Normalize

end ArithEquiv
