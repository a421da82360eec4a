import ArithEquiv.Proofs.Restructuring
import ArithEquiv.Proofs.Uncancelled

/-! The passes over signs, units and opposites come to an end. Each has a measure that goes down while
it changes something: units and opposites take weight away, and a sign taken out of a product leaves
one negative constant less. -/
namespace ArithEquiv

namespace Normalize

open ArithEquiv.Expr

section Loops

variable {settings : Settings} {pass : String} {step : Expr → Except Fault Expr} {e r : Expr}
  {n : Nat} {cost : Int → Nat} {g : Expr → Expr} {P : Expr → Prop}

theorem lighterLoop (lighter : ∀ e, Lighter cost e (g e)) (keeps : ∀ {t}, P t → P (g t))
    (steps : ∀ {t}, P t → step t = .ok (g t)) (small : ∀ e : Expr, e.weight ≤ e.burden cost)
    (room : Roomy settings n) (holds : P e) (light : e.burden cost < n) :
    Returns (toFixedPoint settings pass step e) := by
  have staged : Staged step n fun m t => P t ∧ t.burden cost = m ∧ m ≤ e.burden cost := by
    constructor
    · rintro m t ⟨_, rfl, less⟩
      have := small t
      omega
    · rintro m t ⟨inside, _, _⟩
      rw [steps inside]
      exact returnsOk _
    · rintro m t r ⟨inside, rfl, less⟩ stepped
      obtain rfl := Except.ok.inj ((steps inside).symm.trans stepped)
      rcases Nat.lt_or_eq_of_le (lighter t).1 with lower | same
      · exact .inr ⟨_, lower, keeps inside, rfl, by omega⟩
      · exact .inl ((lighter t).2 same)
  exact staged.loop room ⟨holds, rfl, Nat.le_refl _⟩ light

theorem lighterRun (lighter : ∀ e, Lighter cost e (g e)) (keeps : ∀ {t}, P t → P (g t))
    (steps : ∀ {t}, P t → step t = .ok (g t)) (holds : P e)
    (run : toFixedPoint settings pass step e = .ok r) : P r ∧ r.burden cost ≤ e.burden cost := by
  refine fixedPointKeeps (P := fun t => P t ∧ t.burden cost ≤ e.burden cost)
    (fun {a b} before stepped => ?_) run ⟨holds, Nat.le_refl _⟩
  obtain rfl := Except.ok.inj ((steps before.1).symm.trans stepped)
  exact ⟨keeps before.1, (lighter a).1.trans before.2⟩

end Loops

section Signs

variable {settings : Settings} {e r : Expr} {n : Nat}

theorem countWeight (es : List Expr) :
    ((es.filter fun e => !e.isConst (-1)).map fun e => e.weight + 1).sum +
      2 * es.countP (·.isConst (-1)) = (es.map fun e => e.weight + 1).sum := by
  induction es with
  | nil => rfl
  | cons e es ih =>
    rw [List.filter_cons, List.countP_cons, List.map_cons, List.sum_cons]
    cases sign : e.isConst (-1) with
    | true =>
      have one : e.weight = 1 := by rw [isConstEq sign]; rfl
      simp only [Bool.not_true, Bool.false_eq_true, if_false, if_true]
      omega
    | false =>
      simp only [Bool.not_false, Bool.false_eq_true, if_true, if_false, List.map_cons,
        List.sum_cons]
      omega

/- Two operands may come in for a sign that goes out. -/
theorem signParityNodeWeight (e : Expr) : (signParityNode e).weight ≤ e.weight + 2 ∧
    ((∀ first second rest, e ≠ .flat .mul first second rest) → signParityNode e = e) := by
  unfold signParityNode
  split
  · rename_i first second rest
    refine ⟨?_, fun other => absurd rfl (other first second rest)⟩
    dsimp only
    split
    · exact Nat.le_add_right _ 2
    · rename_i some
      have counted := countWeight (first :: second :: rest)
      have before := weightFlat .mul first second rest
      have after := weightFlat .mul
        (.const (if (first :: second :: rest).countP (·.isConst (-1)) % 2 = 0 then 1 else -1))
        (.const 1) ((first :: second :: rest).filter fun e => !e.isConst (-1))
      have leaf : ∀ m : Int, (Expr.const m).weight = 1 := fun _ => rfl
      rw [List.map_cons, List.sum_cons, List.map_cons, List.sum_cons, leaf, leaf] at after
      omega
  · exact ⟨Nat.le_add_right _ 2, fun _ => rfl⟩

theorem signParityWeight (e : Expr) : (e.bottomUp signParityNode).weight ≤ 3 * e.weight := by
  have plain : ∀ e, (∀ first second rest, e ≠ Expr.flat .mul first second rest) →
      signParityNode e = e := fun e => (signParityNodeWeight e).2
  induction e using Expr.byArgs with
  | const n =>
    rw [bottomUpConst, plain _ (by simp)]
    exact Nat.le_mul_of_pos_left _ (Nat.succ_pos 2)
  | var name =>
    rw [bottomUpVar, plain _ (by simp)]
    exact Nat.le_mul_of_pos_left _ (Nat.succ_pos 2)
  | neg arg ih =>
    have own : ∀ t : Expr, (Expr.neg t).weight = t.weight + 1 := fun _ => rfl
    rw [bottomUpNeg, plain _ (by simp), own, own]
    omega
  | bin op left right ihl ihr =>
    have own : ∀ l r : Expr, (Expr.bin op l r).weight = l.weight + r.weight + 1 := fun _ _ => rfl
    rw [bottomUpBin, plain _ (by simp), own, own]
    omega
  | flat op first second rest ih =>
    have sums : ∀ es : List Expr, (∀ e ∈ es, (e.bottomUp signParityNode).weight ≤ 3 * e.weight) →
        ((es.map (bottomUp signParityNode)).map fun e => e.weight + 1).sum + 2 * es.length ≤
          3 * (es.map fun e => e.weight + 1).sum := by
      intro es each
      induction es with
      | nil => simp
      | cons e es more =>
        have head := each e (by simp)
        have tail := more fun t mem => each t (by simp [mem])
        simp only [List.map_cons, List.sum_cons, List.length_cons]
        omega
    have whole := weightFlat op first second rest
    have swept := weightFlat op (first.bottomUp signParityNode) (second.bottomUp signParityNode)
      (rest.map (bottomUp signParityNode))
    have bound := sums _ ih
    rw [← List.map_cons, ← List.map_cons] at swept
    simp only [List.length_cons] at bound
    have last := (signParityNodeWeight (.flat op (first.bottomUp signParityNode)
      (second.bottomUp signParityNode) (rest.map (bottomUp signParityNode)))).1
    rw [bottomUpFlat]
    omega

theorem cleanSignsReturns (room : Roomy settings n) (light : 3 * e.weight ≤ n) :
    Returns (cleanSigns settings e) := by
  have positive := weightPositive e
  refine (flattenReturns room (by omega) (by omega)).bind fun flat flattens => ?_
  have kept : flat.weight = e.weight := by
    rw [flattenRun flattens]
    exact valueFlattenOnce weights e
  refine (orderProductsReturns room (by omega) (by omega)).bind fun ordered orders => ?_
  have moved : ordered.weight = flat.weight := by
    rw [orderProductsRun orders]
    exact orderWeight _ _ flat
  have bound := signParityWeight ordered
  exact unflattenReturns room (by omega) (by omega)

theorem cleanSignsWeight (run : cleanSigns settings e = .ok r) :
    Unflattened r ∧ r.weight ≤ 3 * e.weight := by
  obtain ⟨flat, flattens, run⟩ := bindOk.1 run
  obtain ⟨ordered, orders, last⟩ := bindOk.1 run
  have kept : flat.weight = e.weight := flattenValue weights flattens
  have moved : ordered.weight = flat.weight := by
    rw [orderProductsRun orders]
    exact orderWeight _ _ flat
  have bound := signParityWeight ordered
  have chains : r.weight = (ordered.bottomUp signParityNode).weight := unflattenValue weights last
  rw [unflattenRun last]
  refine ⟨unflattenOnceUnflattened _, ?_⟩
  rw [← unflattenRun last]
  omega

/- A negative constant weighs more than the negation in front of its magnitude. -/
def signCost (n : Int) : Nat := if n < 0 then 2 else 0

theorem signCostBound (e : Expr) : e.weight ≤ e.burden signCost ∧ e.burden signCost ≤ 3 * e.weight :=
  burdenBound (fun n => by unfold signCost; split <;> omega) e

theorem takeSignLighter (e : Expr) : Lighter signCost e (takeSignNode e) := by
  unfold takeSignNode
  split
  · rename_i first second rest
    split
    · exact ⟨Nat.le_refl _, fun _ => rfl⟩
    · rename_i value others found
      obtain ⟨negative, front, back, all, rfl, _⟩ := splitNegativeOk found
      have before := burdenFlat signCost .mul first second rest
      have sign : (Expr.const value).burden signCost = 3 := by
        show signCost value + 1 = 3
        rw [signCost, if_pos negative]
      have magnitude : (Expr.const (-value)).burden signCost = 1 := by
        show signCost (-value) + 1 = 1
        rw [signCost, if_neg (by omega)]
      have length := congrArg List.length all
      rw [all] at before
      simp only [List.map_append, List.map_cons, List.sum_append, List.sum_cons, sign] at before
      simp only [List.length_append, List.length_cons] at length
      have own : ∀ t : Expr, (Expr.neg t).burden signCost = t.burden signCost + 1 := fun _ => rfl
      have lower : (Expr.neg (.join .mul (if value = -1 then front ++ back
          else .const (-value) :: (front ++ back)))).burden signCost <
          (Expr.flat .mul first second rest).burden signCost := by
        rw [own]
        split
        · have joined := @burdenJoin signCost .mul (front ++ back)
            (List.ne_nil_of_length_pos (by simp; omega))
          simp only [List.map_append, List.sum_append] at joined
          omega
        · have joined := @burdenJoin signCost .mul _
            (List.cons_ne_nil (.const (-value)) (front ++ back))
          simp only [List.map_cons, List.sum_cons, List.map_append, List.sum_append,
            magnitude] at joined
          omega
      exact ⟨Nat.le_of_lt lower, fun same => absurd same (Nat.ne_of_lt lower)⟩
  · exact ⟨Nat.le_refl _, fun _ => rfl⟩

theorem takeSignsReturns (room : Roomy settings n) (light : 3 * e.weight < n) :
    Returns (takeSigns settings e) := by
  have positive := weightPositive e
  refine (flattenReturns room (by omega) (by omega)).bind fun flat flattens => ?_
  have kept : flat.weight = e.weight := flattenValue weights flattens
  have bound := signCostBound flat
  exact lighterLoop (P := fun _ => True) (bottomUpLighter takeSignLighter) (fun _ => trivial)
    (fun _ => rfl) (fun e => (signCostBound e).1) room trivial (by omega)

theorem takeSignsWeight (run : takeSigns settings e = .ok r) : r.weight ≤ 3 * e.weight := by
  obtain ⟨flat, flattens, run⟩ := bindOk.1 run
  have kept : flat.weight = e.weight := flattenValue weights flattens
  have lighter := lighterRun (P := fun _ => True) (bottomUpLighter takeSignLighter)
    (fun _ => trivial) (fun _ => rfl) trivial run
  have above := (signCostBound flat).2
  have below := (signCostBound r).1
  omega

end Signs

section Units

variable {settings : Settings} {e r : Expr} {n : Nat}

def droppedUnits : Expr → Expr
  | .bin op left right => dropUnits op left right
  | e => e

theorem dropUnitsLighter (e : Expr) : Lighter (fun _ => 0) e (droppedUnits e) := by
  have lower : ∀ {t : Expr}, t.weight < e.weight → Lighter (fun _ => 0) e t := fun less =>
    ⟨Nat.le_of_lt less, fun same => absurd same (Nat.ne_of_lt less)⟩
  have same : Lighter (fun _ => 0) e e := ⟨Nat.le_refl _, fun _ => rfl⟩
  cases e with
  | bin op left right =>
    have own : (Expr.bin op left right).weight = left.weight + right.weight + 1 := rfl
    have onLeft := weightPositive left
    have onRight := weightPositive right
    have leaf : (Expr.const 0).weight = 1 := rfl
    have negated : (Expr.neg right).weight = right.weight + 1 := rfl
    unfold droppedUnits dropUnits
    cases op with
    | div => exact same
    | mul => dsimp only; split_ifs <;> first | exact same | exact lower (by omega)
    | add => dsimp only; split_ifs <;> first | exact same | exact lower (by omega)
    | sub => dsimp only; split_ifs <;> first | exact same | exact lower (by omega)
  | _ => exact same

theorem dropUnitsUnflattened {op : BinOp} {left right : Expr} (onLeft : Unflattened left)
    (onRight : Unflattened right) : Unflattened (dropUnits op left right) := by
  unfold dropUnits
  cases op with
  | div => exact .bin onLeft onRight
  | sub =>
    dsimp only
    split_ifs
    · exact onLeft
    · exact .neg onRight
    · exact .bin onLeft onRight
  | _ =>
    dsimp only
    split_ifs <;> first
      | exact .const _
      | exact onRight
      | exact onLeft
      | exact .bin onLeft onRight

theorem dropUnitsSweep (plain : Unflattened e) : Unflattened (e.bottomUp droppedUnits) ∧
    e.bottomUpM dropUnitsNode = .ok (e.bottomUp droppedUnits) := by
  induction plain with
  | const n => rw [bottomUpConst, bottomUpMConst]; exact ⟨.const n, rfl⟩
  | var name => rw [bottomUpVar, bottomUpMVar]; exact ⟨.var name, rfl⟩
  | neg _ ih => rw [bottomUpNeg, bottomUpMNeg, ih.2]; exact ⟨.neg ih.1, rfl⟩
  | bin _ _ ihl ihr =>
    rw [bottomUpBin, bottomUpMBin, ihl.2, ihr.2]
    exact ⟨dropUnitsUnflattened ihl.1 ihr.1, rfl⟩

theorem cleanUnitsReturns (room : Roomy settings n) (plain : Unflattened e) (light : e.weight < n) :
    Returns (cleanUnits settings e) :=
  lighterLoop (P := Unflattened) (bottomUpLighter dropUnitsLighter) (fun plain => (dropUnitsSweep plain).1)
    (fun plain => (dropUnitsSweep plain).2) (fun _ => Nat.le_refl _) room plain light

theorem cleanUnitsWeight (plain : Unflattened e) (run : cleanUnits settings e = .ok r) :
    r.weight ≤ e.weight :=
  (lighterRun (P := Unflattened) (bottomUpLighter dropUnitsLighter) (fun plain => (dropUnitsSweep plain).1)
    (fun plain => (dropUnitsSweep plain).2) plain run).2

end Units

section Opposites

variable {settings : Settings} {e r : Expr} {n : Nat}

theorem cancelOppositesReturns (room : Roomy settings n) (light : e.weight + 1 < n) :
    Returns (cancelOpposites settings e) := by
  have positive := weightPositive e
  refine (flattenReturns room (by omega) (by omega)).bind fun flat flattens => ?_
  have kept : flat.weight = e.weight := flattenValue weights flattens
  exact lighterLoop (P := fun _ => True) cancelLighter (fun _ => trivial)
    (fun _ => rfl) (fun _ => Nat.le_refl _) room trivial (show flat.weight < n by omega)

theorem cancelOppositesLess (run : cancelOpposites settings e = .ok r) : r.weight ≤ e.weight := by
  obtain ⟨flat, flattens, run⟩ := bindOk.1 run
  have kept : flat.weight = e.weight := flattenValue weights flattens
  have lighter : r.weight ≤ flat.weight :=
    (lighterRun (P := fun _ => True) cancelLighter (fun _ => trivial)
      (fun _ => rfl) trivial run).2
  omega

end Opposites

end Normalize

end ArithEquiv
