import ArithEquiv.Proofs.Burdens
import ArithEquiv.Proofs.ReducedTerms

/-! A sweep of cancellation makes a tree lighter unless nothing cancels. In a tree that it leaves as
it is no sum has operands for and against one term. -/
namespace ArithEquiv

theorem sublistWeight {es ks : List Expr} (part : ks.Sublist es) :
    (ks.map fun e => e.weight + 1).sum + es.length ≤
      (es.map fun e => e.weight + 1).sum + ks.length := by
  induction part with
  | slnil => simp
  | cons e _ ih => simp only [List.map_cons, List.sum_cons, List.length_cons]; omega
  | cons_cons e _ ih => simp only [List.map_cons, List.sum_cons, List.length_cons]; omega

namespace Normalize

open ArithEquiv.Expr

theorem cancelNodeWeight (e : Expr) :
    (cancelNode e).weight ≤ e.weight ∧ ((cancelNode e).weight = e.weight → cancelNode e = e) := by
  unfold cancelNode
  split
  · rename_i first second rest
    have whole := weightFlat .add first second rest
    have part := keepSublist (first :: second :: rest) (gone (first :: second :: rest))
    have lighter := sublistWeight part
    have shorter := part.length_le
    rw [← cancelledEq] at part lighter shorter
    have same : (cancelled (first :: second :: rest)).length = (first :: second :: rest).length →
        cancelled (first :: second :: rest) = first :: second :: rest := part.eq_of_length
    match left : cancelled (first :: second :: rest) with
    | [] =>
      have one := weightPositive first
      have two := weightPositive second
      have zero : (Expr.join .add []).weight = 1 := rfl
      simp only [List.map_cons, List.sum_cons] at whole
      exact ⟨by omega, fun equal => by omega⟩
    | [e] =>
      rw [left] at lighter
      simp only [List.map_cons, List.map_nil, List.sum_cons, List.sum_nil, List.length_cons,
        List.length_nil] at lighter whole
      have alone : (Expr.join .add [e]).weight = e.weight := rfl
      exact ⟨by omega, fun equal => by omega⟩
    | x :: y :: more =>
      have kept := weightFlat .add x y more
      rw [left] at lighter shorter same
      have joined : (Expr.join .add (x :: y :: more)).weight = (Expr.flat .add x y more).weight := rfl
      refine ⟨by omega, fun equal => ?_⟩
      rw [same (by omega)]
      rfl
  · exact ⟨le_refl _, fun _ => rfl⟩

theorem cancelLighter (e : Expr) : Lighter (fun _ => 0) e (e.bottomUp cancelNode) :=
  bottomUpLighter cancelNodeWeight e

theorem stableOperands {op : AssocOp} {first second : Expr} {rest : List Expr}
    (stable : (Expr.flat op first second rest).bottomUp cancelNode = .flat op first second rest) :
    (first :: second :: rest).map (Expr.bottomUp cancelNode) = first :: second :: rest := by
  have whole := weightFlat op first second rest
  have swept := weightFlat op (first.bottomUp cancelNode) (second.bottomUp cancelNode)
    (rest.map (Expr.bottomUp cancelNode))
  have same : (((first :: second :: rest).map (bottomUp cancelNode)).map fun e => e.weight + 1).sum =
      ((first :: second :: rest).map fun e => e.weight + 1).sum →
        (first :: second :: rest).map (bottomUp cancelNode) = first :: second :: rest :=
    (mapLighter fun e _ => cancelLighter e).2
  have less : (((first :: second :: rest).map (bottomUp cancelNode)).map fun e => e.weight + 1).sum ≤
      ((first :: second :: rest).map fun e => e.weight + 1).sum :=
    (mapLighter fun e _ => cancelLighter e).1
  obtain ⟨lessNode, _⟩ := cancelNodeWeight
    (.flat op (first.bottomUp cancelNode) (second.bottomUp cancelNode)
      (rest.map (Expr.bottomUp cancelNode)))
  rw [← List.map_cons, ← List.map_cons] at swept
  rw [bottomUpFlat] at stable
  rw [stable] at lessNode
  exact same (by omega)

theorem stableOperand {op : AssocOp} {first second e : Expr} {rest : List Expr}
    (stable : (Expr.flat op first second rest).bottomUp cancelNode = .flat op first second rest)
    (mem : e ∈ first :: second :: rest) : e.bottomUp cancelNode = e :=
  List.map_inj_left.1 ((stableOperands stable).trans (List.map_id _).symm) e mem

theorem stableNode {op : AssocOp} {first second : Expr} {rest : List Expr}
    (stable : (Expr.flat op first second rest).bottomUp cancelNode = .flat op first second rest) :
    cancelNode (.flat op first second rest) = .flat op first second rest := by
  have operands := stableOperands stable
  rw [bottomUpFlat] at stable
  simp only [List.map_cons, List.cons.injEq] at operands
  rwa [operands.1, operands.2.1, operands.2.2] at stable

theorem cancelledAll {first second : Expr} {rest : List Expr}
    (stable : (Expr.flat .add first second rest).bottomUp cancelNode = .flat .add first second rest) :
    cancelled (first :: second :: rest) = first :: second :: rest := by
  have node : Expr.join .add (cancelled (first :: second :: rest)) = .flat .add first second rest :=
    stableNode stable
  have part := keepSublist (first :: second :: rest) (gone (first :: second :: rest))
  have lighter := sublistWeight part
  rw [← cancelledEq] at part lighter
  refine part.eq_of_length ?_
  have shorter := part.length_le
  match left : cancelled (first :: second :: rest) with
  | [] => rw [left] at node; cases node
  | [e] =>
    rw [left] at node part
    have member : e ∈ first :: second :: rest := part.subset (by simp)
    have less : e.weight < (Expr.flat .add first second rest).weight := weightOperand member
    rw [show e = .flat .add first second rest from node] at less
    omega
  | x :: y :: more =>
    rw [left] at node
    cases node
    rfl

theorem noOpposites {es : List Expr} (all : cancelled es = es) {t : Expr}
    (against : Signed.minus t ∈ es.map Signed.ofExpr) : Signed.plus t ∉ es.map Signed.ofExpr := by
  intro inFavour
  have none : (gone es : Multiset Signed) = 0 := by
    have balance := cancelledReadings es
    rw [all] at balance
    exact add_eq_left.1 balance
  have pairs : opposites es = [] := by
    have empty := (Multiset.coe_eq_zero _).1 none
    exact List.map_eq_nil_iff.1 (List.append_eq_nil_iff.1 empty).1
  have both : t ∈ (opposites es : Multiset Expr) := by
    rw [opposites, commonInter, Multiset.mem_inter]
    exact ⟨Multiset.mem_coe.2 (List.mem_filterMap.2 ⟨_, against, rfl⟩),
      Multiset.mem_coe.2 (List.mem_filterMap.2 ⟨_, inFavour, rfl⟩)⟩
  rw [pairs] at both
  exact absurd both (Multiset.notMem_zero t)

theorem stableFlat {op : AssocOp} {first second : Expr} {rest : List Expr}
    (operands : ∀ e ∈ first :: second :: rest, e.bottomUp cancelNode = e)
    (left : op = .add → cancelled (first :: second :: rest) = first :: second :: rest) :
    (Expr.flat op first second rest).bottomUp cancelNode = .flat op first second rest := by
  have each := (List.map_congr_left operands).trans (List.map_id _)
  simp only [List.map_cons, List.cons.injEq] at each
  rw [bottomUpFlat, each.1, each.2.1, each.2.2]
  cases op with
  | mul => rfl
  | add =>
    show Expr.join .add (cancelled (first :: second :: rest)) = _
    rw [left rfl]
    rfl

theorem keepAll (es : List Expr) : keep es [] = es := by
  induction es with
  | nil => rfl
  | cons e rest ih => rw [keep, if_neg List.not_mem_nil, ih]

theorem nothingCancels {es : List Expr}
    (unopposed : ∀ t, Signed.minus t ∈ es.map Signed.ofExpr → Signed.plus t ∉ es.map Signed.ofExpr) :
    cancelled es = es := by
  have none : opposites es = [] := by
    refine List.eq_nil_iff_forall_not_mem.2 fun t mem => ?_
    have both : t ∈ (opposites es : Multiset Expr) := mem
    rw [opposites, commonInter, Multiset.mem_inter] at both
    obtain ⟨against, inEs, found⟩ := List.mem_filterMap.1 (Multiset.mem_coe.1 both.1)
    obtain ⟨inFavour, inEs', found'⟩ := List.mem_filterMap.1 (Multiset.mem_coe.1 both.2)
    cases against with
    | plus _ => cases found
    | minus _ =>
      cases inFavour with
      | minus _ => cases found'
      | plus _ =>
        cases found
        cases found'
        exact unopposed _ inEs inEs'
  rw [cancelledEq, gone, none]
  exact keepAll es

theorem everythingCancels {es : List Expr}
    (balanced : ((es.map Signed.ofExpr).filterMap Signed.minus?).Perm
      ((es.map Signed.ofExpr).filterMap Signed.plus?)) : cancelled es = [] := by
  have same := Multiset.coe_eq_coe.2 balanced
  have both : (opposites es : Multiset Expr) = ((es.map Signed.ofExpr).filterMap Signed.minus? : List Expr) := by
    rw [opposites, commonInter, ← same]
    exact le_antisymm Multiset.inter_le_left (Multiset.le_inter (le_refl _) (le_refl _))
  have all : (gone es : Multiset Signed) = (es.map Signed.ofExpr : List Signed) := by
    rw [signedApart (es.map Signed.ofExpr), gone, ← Multiset.coe_add, ← Multiset.map_coe,
      ← Multiset.map_coe, ← Multiset.map_coe, ← Multiset.map_coe, both, ← same]
  have left := cancelledReadings es
  rw [all, add_eq_right, Multiset.coe_eq_zero] at left
  exact List.map_eq_nil_iff.1 left

end Normalize

end ArithEquiv
