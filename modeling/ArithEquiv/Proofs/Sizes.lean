import ArithEquiv.Proofs.MultipliedOut

/-! How large trees become. The nodes of a tree are no more than its weight, which counts a flat call
as its chain, and the weight is less than the mass, which multiplying out lowers. The size of a
product foretold before it is built is its size. -/
namespace ArithEquiv

namespace Expr

open Normalize

theorem sizesEqSum (es : List Expr) : sizes es = (es.map size).sum := by
  induction es with
  | nil => rfl
  | cons e rest ih => rw [sizes, ih, List.map_cons, List.sum_cons]

theorem sizeWeight (e : Expr) : e.size ≤ e.weight := by
  induction e using Expr.byArgs with
  | const n => exact Nat.le_refl 1
  | var name => exact Nat.le_refl 1
  | neg arg ih =>
    have whole : (Expr.neg arg).weight = arg.weight + 1 := rfl
    simp only [size]
    omega
  | bin op left right ihl ihr =>
    have whole : (Expr.bin op left right).weight = left.weight + right.weight + 1 := rfl
    simp only [size]
    omega
  | flat op first second rest ih =>
    have whole := weightFlat op first second rest
    have onFirst := ih first (by simp)
    have onSecond := ih second (by simp)
    have others : sizes rest ≤ (rest.map fun e => e.weight + 1).sum := by
      rw [sizesEqSum]
      exact List.sum_le_sum fun e mem => Nat.le_succ_of_le (ih e (by simp [mem]))
    simp only [List.map_cons, List.sum_cons] at whole
    simp only [size]
    omega

theorem weightMass (e : Expr) : e.weight < e.mass := by
  have chains : (unflattenOnce e).weight < (unflattenOnce e).mass := by
    have plain := unflattenOnceUnflattened e
    generalize unflattenOnce e = chains at plain ⊢
    induction plain with
    | const n => exact Nat.one_lt_two
    | var name => exact Nat.one_lt_two
    | neg _ ih => exact Nat.succ_lt_succ ih
    | @bin op left right _ _ ihl ihr =>
      have whole : (Expr.bin op left right).weight = left.weight + right.weight + 1 := rfl
      have sums : left.weight + right.weight + 1 < left.mass + right.mass + 1 := by omega
      have products : left.weight + right.weight + 1 < left.mass * right.mass := by
        have grown := Nat.add_le_mul (massAtLeast left) (massAtLeast right)
        omega
      rw [whole]
      cases op with
      | add => exact sums
      | sub => exact sums
      | mul => exact products
      | div => exact products
  rwa [weight, mass, valueUnflattenOnce, valueUnflattenOnce] at chains

theorem massPower (e : Expr) : e.mass ≤ 2 ^ e.weight := by
  have chains : (unflattenOnce e).mass ≤ 2 ^ (unflattenOnce e).weight := by
    have plain := unflattenOnceUnflattened e
    generalize unflattenOnce e = chains at plain ⊢
    induction plain with
    | const n => exact Nat.le_refl 2
    | var name => exact Nat.le_refl 2
    | @neg arg _ ih =>
      have whole : 2 ^ (Expr.neg arg).weight = 2 ^ arg.weight * 2 := Nat.pow_succ 2 _
      have same : (Expr.neg arg).mass = arg.mass + 1 := rfl
      have atLeast := massAtLeast arg
      omega
    | @bin op left right _ _ ihl ihr =>
      have whole : 2 ^ (Expr.bin op left right).weight = 2 ^ left.weight * 2 ^ right.weight * 2 := by
        rw [← Nat.pow_add]
        exact Nat.pow_succ 2 _
      have atLeft := Nat.le_trans (massAtLeast left) ihl
      have atRight := Nat.le_trans (massAtLeast right) ihr
      have grown := Nat.add_le_mul atLeft atRight
      have sums : left.mass + right.mass + 1 ≤ 2 ^ left.weight * 2 ^ right.weight * 2 := by omega
      have products : left.mass * right.mass ≤ 2 ^ left.weight * 2 ^ right.weight * 2 :=
        Nat.le_trans (Nat.mul_le_mul ihl ihr) (Nat.le_mul_of_pos_right _ Nat.two_pos)
      rw [whole]
      cases op with
      | add => exact sums
      | sub => exact sums
      | mul => exact products
      | div => exact products
  rwa [weight, mass, valueUnflattenOnce, valueUnflattenOnce] at chains

end Expr

namespace Normalize

open ArithEquiv.Expr

theorem joinSize (s : Summands) :
    s.join.size + 1 = (s.terms.map fun t => t.size + 1).sum := by
  cases s with
  | single term => simp [Summands.join, Summands.terms]
  | chain op first rest =>
    have chains : ∀ (rest : List Expr) (first : Expr),
        (leftChain op first rest).size + 1 = first.size + 1 + (rest.map fun t => t.size + 1).sum := by
      intro rest
      induction rest with
      | nil => exact fun _ => rfl
      | cons next rest ih =>
        intro first
        have whole : (Expr.bin op first next).size = 1 + first.size + next.size := rfl
        refine (ih (.bin op first next)).trans ?_
        rw [List.map_cons, List.sum_cons]
        omega
    rw [Summands.join, chains, Summands.terms, List.map_cons, List.sum_cons]

theorem termsMap (s : Summands) (f : Expr → Expr) : (s.map f).terms = s.terms.map f := by
  cases s <;> rfl

theorem termsSome (s : Summands) : 0 < s.terms.length := by
  cases s <;> exact Nat.succ_pos _

theorem sumShifted (es : List Expr) (f : Expr → Nat) (m c : Nat) :
    (es.map fun e => m * f e + c).sum = m * (es.map f).sum + es.length * c := by
  induction es with
  | nil => simp
  | cons e es ih =>
    simp only [List.map_cons, List.sum_cons, List.length_cons, ih]
    ring

theorem crossSizeEq (op : BinOp) (left right : Summands) :
    (Summands.cross op left right).size = Summands.crossSize left right := by
  have row : ∀ l : Expr, (right.map fun r => .bin op l r).join.size + 1 =
      right.terms.length * l.size + (sizes right.terms + right.terms.length * 2) := by
    intro l
    have each : (fun t : Expr => t.size + 1) ∘ (fun r => Expr.bin op l r) =
        fun r => 1 * r.size + (l.size + 2) := by
      funext r
      simp only [Function.comp_apply, size]
      omega
    rw [joinSize, termsMap, List.map_map, each, sumShifted, sizesEqSum]
    ring
  have whole := joinSize (left.map fun l => (right.map fun r => .bin op l r).join)
  have each : (fun t : Expr => t.size + 1) ∘ (fun l => (right.map fun r => Expr.bin op l r).join) =
      fun l => right.terms.length * l.size + (sizes right.terms + right.terms.length * 2) :=
    funext row
  rw [termsMap, List.map_map, each, sumShifted, ← sizesEqSum, ← Summands.cross] at whole
  have some : 0 < 2 * left.terms.length * right.terms.length :=
    Nat.mul_pos (Nat.mul_pos Nat.two_pos (termsSome left)) (termsSome right)
  have spread : left.terms.length * (sizes right.terms + right.terms.length * 2) =
      left.terms.length * sizes right.terms + 2 * left.terms.length * right.terms.length := by ring
  rw [spread] at whole
  rw [Summands.crossSize]
  omega

end Normalize

end ArithEquiv
