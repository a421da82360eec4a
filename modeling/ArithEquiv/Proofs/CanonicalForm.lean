import ArithEquiv.Proofs.Stages

/-! Restructuring as a canonical form. Trees that associativity and commutativity make equal, at any
place and with a flat call for its chain, are restructured to one tree: combining constants looks at
operands without their order, and the last sort leaves one order of what it is given. Restructuring
once more changes nothing, although it takes constants out of their place and sorts again. Where
constants are not combined only such trees come to one form. -/
namespace ArithEquiv

open ArithEquiv.Expr

inductive Reordered : Expr → Expr → Prop where
  | refl (e : Expr) : Reordered e e
  | symm {a b : Expr} (same : Reordered a b) : Reordered b a
  | trans {a b c : Expr} (first : Reordered a b) (second : Reordered b c) : Reordered a c
  | swap (op : AssocOp) (left right : Expr) :
      Reordered (.bin op.bin left right) (.bin op.bin right left)
  | regroup (op : AssocOp) (first second third : Expr) :
      Reordered (.bin op.bin (.bin op.bin first second) third)
        (.bin op.bin first (.bin op.bin second third))
  | chain (op : AssocOp) (first second : Expr) (rest : List Expr) :
      Reordered (.flat op first second rest) (Normalize.leftChain op.bin first (second :: rest))
  | neg {a b : Expr} (inner : Reordered a b) : Reordered (.neg a) (.neg b)
  | bin (op : BinOp) {left right left' right' : Expr} (onLeft : Reordered left left')
      (onRight : Reordered right right') : Reordered (.bin op left right) (.bin op left' right')

namespace Reordered

theorem rearranged {a b : Expr} (same : Reordered a b) : Rearranged a b := by
  intro A i commutes
  induction same with
  | refl e => rfl
  | symm _ ih => exact ih.symm
  | trans _ _ first second => exact first.trans second
  | swap op left right => exact commutes op _ _
  | regroup op first second third => exact i.assoc op _ _ _
  | chain op first second rest => rw [valueFlat, Normalize.valueLeftChain]
  | neg _ ih => exact congrArg i.neg ih
  | bin op _ _ onLeft onRight => exact congrArg₂ (i.bin op) onLeft onRight

instance setoid : Setoid Expr := ⟨Reordered, .refl, .symm, .trans⟩

def interpretation : Interpretation (Quotient setoid) where
  const n := ⟦.const n⟧
  var name := ⟦.var name⟧
  neg := Quotient.map .neg fun _ _ inner => .neg inner
  bin op := Quotient.map₂ (.bin op) fun _ _ onLeft _ _ onRight => .bin op onLeft onRight
  assoc op x y z :=
    Quotient.inductionOn₃ x y z fun a b c => Quotient.sound (.regroup op a b c)

theorem commutative : interpretation.Commutative := fun op x y =>
  Quotient.inductionOn₂ x y fun a b => Quotient.sound (.swap op a b)

theorem valueClass (e : Expr) : e.value interpretation = ⟦e⟧ := by
  induction e using Expr.byArgs with
  | const n => rfl
  | var name => rfl
  | neg arg ih => rw [valueNeg, ih]; rfl
  | bin op left right ihl ihr => rw [valueBin, ihl, ihr]; rfl
  | flat op first second rest ih =>
    have chains : ∀ (es : List Expr) (before : Expr), (∀ e ∈ es, e.value interpretation = ⟦e⟧) →
        interpretation.chain op ⟦before⟧ (es.map (value interpretation)) =
          ⟦Normalize.leftChain op.bin before es⟧ := by
      intro es
      induction es with
      | nil => exact fun _ _ => rfl
      | cons e es more =>
        intro before each
        rw [List.map_cons, each e (by simp)]
        exact more (.bin op.bin before e) fun t mem => each t (by simp [mem])
    rw [valueFlat, ih first (by simp),
      chains (second :: rest) first fun e mem => ih e (List.mem_cons_of_mem _ mem)]
    exact Quotient.sound (Reordered.chain op first second rest).symm

end Reordered

theorem reorderedIff {a b : Expr} : Reordered a b ↔ Rearranged a b := by
  refine ⟨Reordered.rearranged, fun same => Quotient.exact (s := Reordered.setoid) ?_⟩
  rw [← Reordered.valueClass a, ← Reordered.valueClass b]
  exact same _ Reordered.interpretation Reordered.commutative

namespace Unordered

def const? : Unordered → Option Int
  | .const n => some n
  | _ => none

end Unordered

namespace Normalize

theorem unorderedConst (e : Expr) : e.unordered.const? = e.const? := by
  cases e with
  | bin op _ _ => cases op <;> rfl
  | flat op _ _ _ => rw [unorderedFlat]; cases op <;> rfl
  | _ => rfl

section Operands

variable {op : AssocOp} {es es' : List Expr}

theorem numbersUnordered (perm : (es.map unordered).Perm (es'.map unordered)) :
    (numbers es).Perm (numbers es') := by
  have read : ∀ es : List Expr, numbers es = (es.map unordered).filterMap Unordered.const? := by
    intro es
    rw [List.filterMap_map]
    exact List.filterMap_congr fun e _ => (unorderedConst e).symm
  rw [read es, read es']
  exact perm.filterMap _

theorem othersUnordered (perm : (es.map unordered).Perm (es'.map unordered)) :
    ((others es).map unordered).Perm ((others es').map unordered) := by
  have read : ∀ es : List Expr,
      (others es).map unordered = (es.map unordered).filter fun x => x.const?.isNone := by
    intro es
    rw [List.filter_map]
    refine congrArg (List.map unordered) (List.filter_congr fun e _ => ?_)
    rw [Function.comp_apply, unorderedConst]
  rw [read es, read es']
  exact perm.filter _

theorem totalUnordered (perm : (es.map unordered).Perm (es'.map unordered)) :
    op.total (numbers es) = op.total (numbers es') := by
  have same := numbersUnordered perm
  cases op with
  | add => rw [totalAdd, totalAdd, same.sum_eq]
  | mul => rw [totalMul, totalMul, same.prod_eq]

theorem joinUnordered (perm : (es.map unordered).Perm (es'.map unordered)) :
    (join op es).unordered = (join op es').unordered := by
  have length := perm.length_eq
  rw [List.length_map, List.length_map] at length
  match es, es' with
  | [], [] => rfl
  | [e], [e'] => exact List.singleton_perm_singleton.1 perm
  | x :: y :: xs, x' :: y' :: xs' =>
    have parts := (perm.map (Unordered.parts op)).sum_eq
    rw [List.map_map, List.map_map] at parts
    show (Expr.flat op x y xs).unordered = (Expr.flat op x' y' xs').unordered
    rw [unorderedFlat, unorderedFlat]
    exact congrArg (Unordered.gather op) parts
  | [], _ :: _ => cases length
  | [_], [] => cases length
  | [_], _ :: _ :: _ => simp only [List.length_cons, List.length_nil] at length; omega
  | _ :: _ :: _, [] => cases length
  | _ :: _ :: _, [_] => simp only [List.length_cons, List.length_nil] at length; omega

theorem splicedUnordered {e e' : Expr} (flattened : Flattened e) (flattened' : Flattened e')
    (same : e.unordered = e'.unordered) :
    ((spliced op e).map unordered).Perm ((spliced op e').map unordered) := by
  have roots := rootsAgree same
  by_cases found : rootOp? e = some op
  · have drawn : ∀ {t : Expr}, Flattened t → rootOp? t = some op → ∃ x y xs, t = .flat op x y xs := by
      intro t flattened found
      cases flattened with
      | @flat inner x y xs _ _ => exact ⟨x, y, xs, by rw [Option.some.inj found]⟩
      | bin other _ _ => cases other.symm.trans found
      | _ => cases found
    obtain ⟨x, y, xs, rfl⟩ := drawn flattened found
    obtain ⟨x', y', xs', rfl⟩ := drawn flattened' (roots.symm.trans found)
    have perm := operandsUnordered flattened flattened' same
    simpa only [spliced, if_pos] using perm
  · rw [splicedAlone found, splicedAlone (by rwa [← roots])]
    exact List.Perm.of_eq (congrArg (fun x => [x]) same)

theorem drawnInUnordered (flattened : ∀ e ∈ es, Flattened e) (flattened' : ∀ e ∈ es', Flattened e)
    (perm : (es.map unordered).Perm (es'.map unordered)) :
    ((drawnIn op es).map unordered).Perm ((drawnIn op es').map unordered) := by
  have parts : ∀ es : List Expr, ((drawnIn op es).map unordered : Multiset Unordered) =
      (es.map fun e => ((spliced op e).map unordered : Multiset Unordered)).sum := by
    intro es
    induction es with
    | nil => rfl
    | cons e rest ih =>
      rw [List.map_cons, List.sum_cons, ← ih, Multiset.coe_add, ← List.map_append]
      rfl
  refine Multiset.coe_eq_coe.1 ?_
  rw [parts es, parts es']
  refine (permDetermined perm fun e mem e' mem' same => ?_).sum_eq
  exact Multiset.coe_eq_coe.2 (splicedUnordered (flattened e mem) (flattened' e' mem') same)

theorem foldsToUnordered {r r' : Expr} (perm : (es.map unordered).Perm (es'.map unordered))
    (folds : FoldsTo op es r) (folds' : FoldsTo op es' r') : r.unordered = r'.unordered := by
  have total : op.total (numbers es) = op.total (numbers es') := totalUnordered perm
  have left := othersUnordered perm
  cases folds with
  | zero product none =>
    cases folds' with
    | zero _ _ => rfl
    | identity same =>
      rw [product] at none total same
      rw [none, same] at total
      cases total
    | constant _ some => exact absurd (total.symm.trans none) (some product)
  | identity same =>
    cases folds' with
    | zero product none =>
      rw [product] at none total same
      rw [none, same] at total
      cases total
    | identity _ => exact joinUnordered left
    | constant differs _ => exact absurd (total.symm.trans same) differs
  | constant differs some =>
    cases folds' with
    | zero product none => exact absurd (total.trans none) (some product)
    | identity same => exact absurd (total.trans same) differs
    | constant _ _ =>
      refine joinUnordered ?_
      rw [total]
      exact left.cons _

end Operands

section Folding

variable {e e' r r' : Expr}

def combinedOnce (e : Expr) : Expr :=
  match e.bottomUpM foldConstantsNode with
  | .ok r => r
  | .error _ => e

theorem combinedOnceEq (run : e.bottomUpM foldConstantsNode = .ok r) : combinedOnce e = r := by
  rw [combinedOnce, run]

theorem combinedOnceAll {es rs : List Expr}
    (worked : List.Forall₂ (fun e r => e.bottomUpM foldConstantsNode = .ok r) es rs) :
    es.map combinedOnce = rs := by
  induction worked with
  | nil => rfl
  | cons one _ ih => rw [List.map_cons, combinedOnceEq one, ih]

theorem foldFlatOk {op : AssocOp} {first second : Expr} {rest : List Expr}
    (run : (Expr.flat op first second rest).bottomUpM foldConstantsNode = .ok r) :
    (∀ e ∈ first :: second :: rest, e.bottomUpM foldConstantsNode = .ok (combinedOnce e)) ∧
      FoldsTo op (drawnIn op ((first :: second :: rest).map combinedOnce)) r := by
  rw [bottomUpMFlat] at run
  obtain ⟨a, workedFirst, run⟩ := bindOk.1 run
  obtain ⟨b, workedSecond, run⟩ := bindOk.1 run
  obtain ⟨more, workedRest, last⟩ := bindOk.1 run
  have worked : List.Forall₂ (fun e r => e.bottomUpM foldConstantsNode = .ok r)
      (first :: second :: rest) (a :: b :: more) :=
    .cons workedFirst (.cons workedSecond (mapMOk.1 workedRest))
  refine ⟨fun e mem => ?_, ?_⟩
  · obtain ⟨r, _, one⟩ := forallTwoLeft worked mem
    rw [combinedOnceEq one, one]
  · rw [combinedOnceAll worked]
    exact foldConstantsNodeOk last

theorem foldSweepUnordered (flattened : Flattened e) (flattened' : Flattened e')
    (same : e.unordered = e'.unordered) (run : e.bottomUpM foldConstantsNode = .ok r)
    (run' : e'.bottomUpM foldConstantsNode = .ok r') : r.unordered = r'.unordered := by
  refine unorderedInduction (P := fun e e' => ∀ r r', e.bottomUpM foldConstantsNode = .ok r →
    e'.bottomUpM foldConstantsNode = .ok r' → r.unordered = r'.unordered) ?_ ?_ ?_ ?_ ?_
    flattened flattened' same r r' run run'
  · intro n r r' run run'
    rw [Except.ok.inj (run.symm.trans run')]
  · intro name r r' run run'
    rw [Except.ok.inj (run.symm.trans run')]
  · intro a b inner r r' run run'
    rw [bottomUpMNeg] at run run'
    obtain ⟨a, worked, ⟨⟩⟩ := bindOk.1 run
    obtain ⟨a', worked', ⟨⟩⟩ := bindOk.1 run'
    exact congrArg Unordered.interpretation.neg (inner a a' worked worked')
  · intro op left right left' right' _ lefts rights r r' run run'
    rw [bottomUpMBin] at run run'
    obtain ⟨l, onLeft, run⟩ := bindOk.1 run
    obtain ⟨k, onRight, ⟨⟩⟩ := bindOk.1 run
    obtain ⟨l', onLeft', run'⟩ := bindOk.1 run'
    obtain ⟨k', onRight', ⟨⟩⟩ := bindOk.1 run'
    exact congrArg₂ (Unordered.interpretation.bin op) (lefts l l' onLeft onLeft')
      (rights k k' onRight onRight')
  · intro op x y xs x' y' xs' flattened flattened' same each r r' run run'
    obtain ⟨worked, folds⟩ := foldFlatOk run
    obtain ⟨worked', folds'⟩ := foldFlatOk run'
    have perm := operandsUnordered flattened flattened' same
    have swept : (((x :: y :: xs).map combinedOnce).map unordered).Perm
        (((x' :: y' :: xs').map combinedOnce).map unordered) := by
      rw [List.map_map, List.map_map]
      exact permDetermined perm fun e mem e' mem' inner =>
        each e mem e' mem' inner _ _ (worked e mem) (worked' e' mem')
    have kept : ∀ {x y : Expr} {xs : List Expr}, Flattened (.flat op x y xs) →
        (∀ e ∈ x :: y :: xs, e.bottomUpM foldConstantsNode = .ok (combinedOnce e)) →
        ∀ t ∈ (x :: y :: xs).map combinedOnce, Flattened t := by
      intro x y xs flattened worked t mem
      obtain ⟨e, member, rfl⟩ := List.mem_map.1 mem
      cases flattened with
      | flat each _ => exact (foldSweep (each e member) (worked e member)).1
    exact foldsToUnordered
      (drawnInUnordered (kept flattened worked) (kept flattened' worked') swept) folds folds'

end Folding

section Runs

open Relation

variable {settings : Settings} {a b r s : Expr}

/- Two ways to a fixed point that stay related step by step end in related trees: the shorter one
waits at its end. -/
theorem stableTogether {step : Expr → Except Fault Expr} {R : Expr → Expr → Prop}
    (keeps : ∀ {a b a' b'}, R a b → step a = .ok a' → step b = .ok b' → R a' b')
    (reachedA : ReflTransGen (Leads step) a r) (stableA : step r = .ok r)
    (reachedB : ReflTransGen (Leads step) b s) (stableB : step s = .ok s) (related : R a b) :
    R r s := by
  induction reachedA using ReflTransGen.head_induction_on generalizing b with
  | refl =>
    clear stableB
    induction reachedB using ReflTransGen.head_induction_on with
    | refl => exact related
    | head next _ ih => exact ih (keeps related stableA next)
  | head next _ ih =>
    rcases ReflTransGen.cases_head reachedB with rfl | ⟨c, stepped, rest⟩
    · exact ih .refl (keeps related next stableB)
    · exact ih rest (keeps related next stepped)

def CombinesTo (settings : Settings) (e r : Expr) : Prop :=
  match settings.constants with
  | .fold => ReflTransGen (Leads fun e => e.bottomUpM foldConstantsNode) e r ∧
      r.bottomUpM foldConstantsNode = .ok r
  | .expand => r = e

theorem foldedCombines (run : folded settings a = .ok r) : CombinesTo settings a r := by
  unfold folded at run
  unfold CombinesTo
  cases strategy : settings.constants with
  | fold =>
    rw [strategy] at run
    exact fixedPointReaches run
  | expand =>
    rw [strategy] at run
    exact (Except.ok.inj run).symm

theorem CombinesTo.again (combined : CombinesTo settings a r) : CombinesTo settings r r := by
  unfold CombinesTo at combined ⊢
  cases strategy : settings.constants with
  | fold =>
    rw [strategy] at combined
    exact ⟨.refl, combined.2⟩
  | expand => rfl

theorem CombinesTo.unordered (onA : CombinesTo settings a r) (onB : CombinesTo settings b s)
    (flattenedA : Flattened a) (flattenedB : Flattened b) (same : a.unordered = b.unordered) :
    Flattened r ∧ Flattened s ∧ r.unordered = s.unordered := by
  unfold CombinesTo at onA onB
  cases strategy : settings.constants with
  | fold =>
    rw [strategy] at onA onB
    refine stableTogether (R := fun a b => Flattened a ∧ Flattened b ∧ a.unordered = b.unordered)
      (fun before stepped stepped' => ?_) onA.1 onA.2 onB.1 onB.2 ⟨flattenedA, flattenedB, same⟩
    obtain ⟨onLeft, onRight, same⟩ := before
    exact ⟨(foldSweep onLeft stepped).1, (foldSweep onRight stepped').1,
      foldSweepUnordered onLeft onRight same stepped stepped'⟩
  | expand =>
    rw [strategy] at onA onB
    rw [onA, onB]
    exact ⟨flattenedA, flattenedB, same⟩

theorem restructuredAlike (runA : restructured settings a = .ok r)
    (runB : restructured settings b = .ok s) (same : Rearranged a b)
    (apart : NoCollisions settings.hash
      (sortedRestructuring settings a ++ sortedRestructuring settings b)) : r = s := by
  obtain ⟨combined, o, folds, orders, rfl, sorted⟩ := restructuredOk runA
  obtain ⟨combined', o', folds', orders', rfl, sorted'⟩ := restructuredOk runB
  have flat : Rearranged (flattenOnce a) (flattenOnce b) :=
    (flattenRearranged a).trans (same.trans (flattenRearranged b).symm)
  obtain ⟨onCombined, onCombined', alike⟩ := (foldedCombines folds).unordered (foldedCombines folds')
    (flattenOnceFlattened a) (flattenOnceFlattened b)
    (flat Unordered Unordered.interpretation Unordered.commutative)
  rw [sorted, sorted'] at apart
  rw [orderOperandsUnique orders orders' onCombined onCombined'
    (unorderedRearranged onCombined onCombined' alike) apart]

theorem restructuredStays (run : restructured settings a = .ok r)
    (again : restructured settings r = .ok s)
    (apart : NoCollisions settings.hash
      (sortedRestructuring settings a ++ sortedRestructuring settings r)) : s = r := by
  obtain ⟨combined, o, folds, orders, rfl, sorted⟩ := restructuredOk run
  obtain ⟨combined', o', folds', orders', rfl, sorted'⟩ := restructuredOk again
  have onCombined : Flattened combined :=
    ((foldedCombines folds).unordered (foldedCombines folds) (flattenOnceFlattened a)
      (flattenOnceFlattened a) rfl).1
  have settled := orderOperandsSettled orders onCombined
  rw [flattenUnflatten settled.flattened] at folds'
  obtain ⟨onCombined', _, alike⟩ := (foldedCombines folds').unordered (foldedCombines folds).again
    settled.flattened onCombined
    (orderOperandsRearranged orders Unordered Unordered.interpretation Unordered.commutative)
  rw [sorted, sorted'] at apart
  rw [orderOperandsUnique orders orders' onCombined onCombined'
    (unorderedRearranged onCombined onCombined' alike.symm) apart]

end Runs

theorem restructuredCanonical {settings : Settings} {a b r s : Expr} {journal journal' : Journal}
    (runA : (restructure settings a journal).1 = .ok r)
    (runB : (restructure settings b journal').1 = .ok s)
    (apart : NoCollisions settings.hash
      (sortedRestructuring settings a ++ sortedRestructuring settings b)) :
    (Reordered a b → r = s) ∧
    (settings.constants = .expand → r = s → Reordered a b) ∧
    ∀ {again : Expr} {journal'' : Journal}, (restructure settings r journal'').1 = .ok again →
      NoCollisions settings.hash
        (sortedRestructuring settings a ++ sortedRestructuring settings r) → again = r := by
  rw [restructureGives settings a journal] at runA
  rw [restructureGives settings b journal'] at runB
  refine ⟨fun same => restructuredAlike runA runB same.rearranged apart, fun expand same => ?_,
    fun {again journal''} run apart => ?_⟩
  · have fromA := restructuredRearranged expand runA
    have fromB := restructuredRearranged expand runB
    rw [same] at fromA
    exact reorderedIff.2 (fromA.symm.trans fromB)
  · rw [restructureGives settings r journal''] at run
    exact restructuredStays runA run apart

def nestedSum : Expr :=
  .bin .add (.var "z") (.bin .mul (.bin .add (.const 2) (.var "y")) (.var "x"))

def nestedSumOrdered : Expr :=
  .bin .add (.bin .mul (.var "x") (.bin .add (.var "y") (.const 2))) (.var "z")

def nestedSumFlat : Expr :=
  .flat .add (.bin .mul (.var "x") (.bin .add (.const 2) (.var "y"))) (.var "z") []

theorem nestedSumReordered : Reordered nestedSum nestedSumFlat :=
  .trans (.bin .add (.refl _) (.swap .mul _ _))
    (.trans (.swap .add _ _) (Reordered.chain .add _ _ []).symm)

theorem restructuredCanonicalNested : ∃ r s, (restructure expanding nestedSum {}).1 = .ok r ∧
    (restructure expanding nestedSumFlat {}).1 = .ok s ∧
    NoCollisions expanding.hash (sortedRestructuring expanding nestedSum ++
      sortedRestructuring expanding nestedSumFlat) ∧
    (Reordered nestedSum nestedSumFlat ∧ r = s) ∧
    (expanding.constants = .expand ∧ r = s ∧ Reordered nestedSum nestedSumFlat) ∧
    ∃ again, (restructure expanding r {}).1 = .ok again ∧
      NoCollisions expanding.hash
        (sortedRestructuring expanding nestedSum ++ sortedRestructuring expanding r) ∧ again = r := by
  have runA : (restructure expanding nestedSum {}).1 = .ok nestedSumOrdered := by
    rw [expandingByNumbers]
    decide +kernel
  have runB : (restructure expanding nestedSumFlat {}).1 = .ok nestedSumOrdered := by
    rw [expandingByNumbers]
    decide +kernel
  have apart : NoCollisions expanding.hash (sortedRestructuring expanding nestedSum ++
      sortedRestructuring expanding nestedSumFlat) := by
    refine .ofDistinct ?_
    rw [expandingByNumbers]
    decide +kernel
  have again : (restructure expanding nestedSumOrdered {}).1 = .ok nestedSumOrdered := by
    rw [expandingByNumbers]
    decide +kernel
  have apart' : NoCollisions expanding.hash (sortedRestructuring expanding nestedSum ++
      sortedRestructuring expanding nestedSumOrdered) := by
    refine .ofDistinct ?_
    rw [expandingByNumbers]
    decide +kernel
  have canonical := restructuredCanonical runA runB apart
  exact ⟨_, _, runA, runB, apart, ⟨nestedSumReordered, canonical.1 nestedSumReordered⟩,
    ⟨rfl, rfl, canonical.2.1 rfl rfl⟩, _, again, apart', canonical.2.2 again apart'⟩

end Normalize

end ArithEquiv
