import ArithEquiv.Proofs.CanonicalForm
import ArithEquiv.Proofs.Opposites

/-! Cancellation in sums of the same terms in different orders. Where signs stand in front an
operand can be told from its reading, so what is left of two such sums is again the same up to
order, sweep by sweep, and the last sort makes it one tree. -/
namespace ArithEquiv.Normalize

open ArithEquiv.Expr

namespace Signed

def toExpr : Signed → Expr
  | .plus term => term
  | .minus (.const n) => .const (-n)
  | .minus term => .neg term

end Signed

def Permuted (a b : Expr) : Prop :=
  ∃ xs ys : List Expr, xs.Perm ys ∧ a = .join .add xs ∧ b = .join .add ys

theorem Permuted.refl (e : Expr) : Permuted e e := ⟨[e], [e], .refl _, rfl, rfl⟩

theorem Permuted.rearranged {a b : Expr} (permuted : Permuted a b) : Rearranged a b := by
  obtain ⟨xs, ys, perm, rfl, rfl⟩ := permuted
  intro A i commutes
  by_cases none : xs = []
  · rw [none] at perm ⊢
    rw [perm.nil_eq]
  · have some : ys ≠ [] := fun empty => none (List.perm_nil.1 (empty ▸ perm))
    refine WithOne.coe_injective ?_
    rw [totalJoin i .add none, totalJoin i .add some]
    exact Interpretation.totalPerm commutes .add (perm.map _)

theorem operandsShaped {rules : Rules} {op : AssocOp} {first second : Expr} {rest : List Expr}
    (shaped : Shaped rules (.flat op first second rest)) :
    ∀ e ∈ first :: second :: rest, Shaped rules e := by
  cases shaped with
  | product _ _ _ each => exact each
  | sum _ _ each => exact each

section Readings

variable {xs ys : List Expr}

theorem toExprReading {e : Expr} (shaped : Shaped .signed e) : (Signed.ofExpr e).toExpr = e := by
  cases shaped with
  | const n =>
    rw [Signed.ofExpr]
    split
    · exact congrArg Expr.const (neg_neg n)
    · rfl
  | @neg arg _ solid _ =>
    cases arg with
    | const n => rcases solid with found | found <;> cases found
    | _ => rfl
  | _ => rfl

theorem gonePerm (perm : xs.Perm ys) : (gone xs : Multiset Signed) = gone ys := by
  have readings := perm.map Signed.ofExpr
  have pairs : (opposites xs : Multiset Expr) = opposites ys := by
    rw [opposites, opposites, commonInter, commonInter,
      Multiset.coe_eq_coe.2 (readings.filterMap Signed.minus?),
      Multiset.coe_eq_coe.2 (readings.filterMap Signed.plus?)]
  rw [gone, gone, ← Multiset.coe_add, ← Multiset.coe_add, ← Multiset.map_coe, ← Multiset.map_coe,
    ← Multiset.map_coe, ← Multiset.map_coe, pairs]

theorem cancelledPerm (shapedX : ∀ e ∈ xs, Shaped .signed e) (shapedY : ∀ e ∈ ys, Shaped .signed e)
    (perm : xs.Perm ys) : (cancelled xs).Perm (cancelled ys) := by
  have balance := (cancelledReadings xs).trans
    ((Multiset.coe_eq_coe.2 (perm.map Signed.ofExpr)).trans (cancelledReadings ys).symm)
  rw [gonePerm perm] at balance
  have readings := Multiset.coe_eq_coe.1 (add_right_cancel balance)
  have back : ∀ es : List Expr, (∀ e ∈ es, Shaped .signed e) →
      ((cancelled es).map Signed.ofExpr).map Signed.toExpr = cancelled es := by
    intro es shaped
    have part := keepSublist es (gone es)
    rw [List.map_map]
    exact (List.map_congr_left fun e mem => toExprReading (shaped e (part.subset mem))).trans
      (List.map_id _)
  rw [← back xs shapedX, ← back ys shapedY]
  exact readings.map Signed.toExpr

end Readings

section Runs

variable {settings : Settings} {a b r s : Expr}

theorem joinSwept {xs : List Expr} (many : 2 ≤ xs.length) :
    (Expr.join .add xs).bottomUp cancelNode =
      .join .add (cancelled (xs.map (Expr.bottomUp cancelNode))) := by
  rcases xs with _ | ⟨first, _ | ⟨second, rest⟩⟩
  · cases many
  · simp at many
  · show (Expr.flat .add first second rest).bottomUp cancelNode = _
    rw [bottomUpFlat]
    rfl

theorem cancelPermuted (shapedA : Shaped .signed a) (shapedB : Shaped .signed b)
    (permuted : Permuted a b) : Permuted (a.bottomUp cancelNode) (b.bottomUp cancelNode) := by
  obtain ⟨xs, ys, perm, rfl, rfl⟩ := permuted
  have length := perm.length_eq
  have swept : ∀ es : List Expr, Shaped .signed (.join .add es) → 2 ≤ es.length →
      ∀ e ∈ es.map (Expr.bottomUp cancelNode), Shaped .signed e := by
    intro es shaped many t mem
    obtain ⟨e, member, rfl⟩ := List.mem_map.1 mem
    rcases es with _ | ⟨first, _ | ⟨second, rest⟩⟩
    · cases many
    · simp at many
    · exact cancelShaped (operandsShaped shaped e member)
  by_cases many : 2 ≤ xs.length
  · have many' : 2 ≤ ys.length := length ▸ many
    rw [joinSwept many, joinSwept many']
    have left := cancelledPerm (swept xs shapedA many) (swept ys shapedB many') (perm.map _)
    exact ⟨_, _, left, rfl, rfl⟩
  · have same : xs = ys := permFew perm (by omega)
    rw [same]
    exact .refl _

theorem cancelOppositesPermuted (shapedA : Shaped .signed a) (shapedB : Shaped .signed b)
    (permuted : Permuted a b) (runA : cancelOpposites settings a = .ok r)
    (runB : cancelOpposites settings b = .ok s) : Permuted r s := by
  obtain ⟨flat, flattensA, sweepsA⟩ := bindOk.1 runA
  obtain ⟨flat', flattensB, sweepsB⟩ := bindOk.1 runB
  obtain rfl : flat = a :=
    (flattenRun flattensA).trans (flattenOnceFixed (shapedFlattened shapedA))
  obtain rfl : flat' = b :=
    (flattenRun flattensB).trans (flattenOnceFixed (shapedFlattened shapedB))
  obtain ⟨reachesA, stableA⟩ := fixedPointReaches sweepsA
  obtain ⟨reachesB, stableB⟩ := fixedPointReaches sweepsB
  refine (stableTogether
    (R := fun x y => Shaped .signed x ∧ Shaped .signed y ∧ Permuted x y)
    (fun related stepA stepB => ?_) reachesA stableA reachesB stableB
    ⟨shapedA, shapedB, permuted⟩).2.2
  cases stepA
  cases stepB
  exact ⟨cancelShaped related.1, cancelShaped related.2.1,
    cancelPermuted related.1 related.2.1 related.2.2⟩

end Runs

end ArithEquiv.Normalize
