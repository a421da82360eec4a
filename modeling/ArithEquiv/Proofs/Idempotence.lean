import ArithEquiv.Proofs.NormalShape
import ArithEquiv.Proofs.SteadyNumerators
import ArithEquiv.Proofs.Uncancelled

/-! A second run. It comes to the terms of the normal form it began with, in some order, and to the
same normal form where no sum of that form has operands for and against one term. Cancellation may
leave such operands: it compares them before their factors stand in order. -/
namespace ArithEquiv

namespace Unordered

noncomputable def reading : Unordered → Bool × Nat
  | .neg arg => (false, arg)
  | .const n => if n < 0 then (false, code (.const (-n))) else (true, code (.const n))
  | x => (true, x.code)

end Unordered

namespace Normalize

open ArithEquiv.Expr Formal

namespace Signed

def term : Signed → Expr
  | .plus term => term
  | .minus term => term

noncomputable def unordered : Signed → Bool × Nat
  | .plus term => (true, term.unordered.code)
  | .minus term => (false, term.unordered.code)

theorem ofConst (n : Int) :
    Signed.ofExpr (.const n) = if n < 0 then .minus (.const (-n)) else .plus (.const n) := rfl

theorem unorderedOfExpr (e : Expr) : (Signed.ofExpr e).unordered = e.unordered.reading := by
  cases e with
  | const n =>
    have reading : (Expr.const n).unordered.reading = if n < 0 then
        (false, Unordered.code (.const (-n))) else (true, Unordered.code (.const n)) := rfl
    rw [ofConst, reading]
    split <;> rfl
  | bin op _ _ => cases op <;> rfl
  | flat op first second rest =>
    show (true, (Expr.flat op first second rest).unordered.code) = _
    rw [unorderedFlat]
    cases op <;> rfl
  | _ => rfl

theorem opposed {against inFavour : Signed} {t : Expr}
    (minus : against.unordered = (Signed.minus t).unordered)
    (plus : inFavour.unordered = (Signed.plus t).unordered) :
    ∃ u v, against = .minus u ∧ inFavour = .plus v ∧ u.unordered = v.unordered := by
  cases against with
  | plus _ => cases (Prod.mk.inj minus).1
  | minus u =>
    cases inFavour with
    | minus _ => cases (Prod.mk.inj plus).1
    | plus v =>
      exact ⟨u, v, rfl, rfl,
        Unordered.codeInjective ((Prod.mk.inj minus).2.trans (Prod.mk.inj plus).2.symm)⟩

end Signed

section Settled

variable {hash : NodeHash}

theorem settledTerm {e : Expr} (settled : Settled hash e) : Settled hash (Signed.ofExpr e).term := by
  cases e with
  | const n =>
    rw [Signed.ofConst]
    split <;> exact ⟨.const _, fun _ => .const _⟩
  | neg arg => exact settledNeg settled
  | _ => exact settled

theorem termOperands (e : Expr) (op : AssocOp) :
    ∀ t ∈ (Signed.ofExpr e).term.operandsOf op, t ∈ e.operandsOf op := by
  intro t mem
  cases e with
  | const n =>
    rw [Signed.ofConst] at mem
    split at mem <;> exact mem
  | _ => exact mem

theorem cancelledUnordered {es es' : List Expr}
    (perm : (es.map Expr.unordered).Perm (es'.map Expr.unordered))
    (settled : ∀ e ∈ es', Settled hash e) (apart : ∀ e ∈ es', ∀ f ∈ es', ApartIn hash e f)
    (all : cancelled es' = es') : cancelled es = es := by
  have counterpart : ∀ e ∈ es, ∃ e' ∈ es', (Signed.ofExpr e').unordered = (Signed.ofExpr e).unordered := by
    intro e mem
    obtain ⟨e', mem', same⟩ := List.mem_map.1 (perm.mem_iff.1 (List.mem_map_of_mem mem))
    exact ⟨e', mem', by rw [Signed.unorderedOfExpr, same, Signed.unorderedOfExpr]⟩
  refine nothingCancels fun t against inFavour => ?_
  obtain ⟨e, memE, readE⟩ := List.mem_map.1 against
  obtain ⟨f, memF, readF⟩ := List.mem_map.1 inFavour
  obtain ⟨e', memE', sameE⟩ := counterpart e memE
  obtain ⟨f', memF', sameF⟩ := counterpart f memF
  rw [readE] at sameE
  rw [readF] at sameF
  obtain ⟨u, v, readU, readV, same⟩ := Signed.opposed sameE sameF
  have settledU := settledTerm (settled e' memE')
  have settledV := settledTerm (settled f' memF')
  have parts := (apart e' memE' f' memF').parts (termOperands e') (termOperands f')
  rw [readU] at settledU parts
  rw [readV] at settledV parts
  obtain rfl : u = v := unorderedInjective settledU settledV parts same
  refine noOpposites all (t := u) ?_ ?_
  · rw [← readU]
    exact List.mem_map_of_mem memE'
  · rw [← readV]
    exact List.mem_map_of_mem memF'

theorem stableUnordered {a b : Expr} (flattened : Flattened a) (settled : Settled hash b)
    (apart : ApartIn hash b b) (same : a.unordered = b.unordered)
    (stable : b.bottomUp cancelNode = b) : a.bottomUp cancelNode = a := by
  refine unorderedInduction (P := fun a b => Settled hash b → ApartIn hash b b →
    b.bottomUp cancelNode = b → a.bottomUp cancelNode = a) ?_ ?_ ?_ ?_ ?_ flattened
    settled.flattened same settled apart stable
  · exact fun _ _ _ stable => stable
  · exact fun _ _ _ stable => stable
  · intro arg other inner settled apart stable
    have args : other.bottomUp cancelNode = other :=
      Expr.neg.inj ((bottomUpNeg _ _).symm.trans stable)
    rw [bottomUpNeg, inner (settledNeg settled) apart args]
    rfl
  · intro op left right left' right' _ lefts rights settled apart stable
    obtain ⟨_, onLeft, onRight⟩ := settledBin settled
    have parts : Expr.bin op (left'.bottomUp cancelNode) (right'.bottomUp cancelNode) =
        .bin op left' right' := (bottomUpBin cancelNode op left' right').symm.trans stable
    obtain ⟨_, stableLeft, stableRight⟩ := Expr.bin.inj parts
    rw [bottomUpBin, lefts onLeft apart.left stableLeft, rights onRight apart.right stableRight]
    rfl
  · intro op x y xs x' y' xs' flattened flattened' same each settled apart stable
    have perm := operandsUnordered flattened flattened' same
    have parts := settledOperand settled
    refine stableFlat (fun e mem => ?_) (fun sum => ?_)
    · obtain ⟨e', mem', inner⟩ := List.mem_map.1 (perm.mem_iff.1 (List.mem_map_of_mem mem))
      exact each e mem e' mem' inner.symm (parts e' mem').1 (apart.operands mem' mem')
        (stableOperand stable mem')
    · subst sum
      exact cancelledUnordered perm (fun e mem => (parts e mem).1)
        (fun e mem f mem' => apart.operands mem mem') (cancelledAll stable)

end Settled

def FullyCancelled (r : Expr) : Prop := (flattenOnce r).bottomUp cancelNode = flattenOnce r

instance (r : Expr) : Decidable (FullyCancelled r) := by
  unfold FullyCancelled
  infer_instance

section Runs

variable {settings : Settings} {e r s start terms left combined o : Expr}

theorem cancelOppositesNothing (flattened : Flattened e) (stable : e.bottomUp cancelNode = e)
    (run : cancelOpposites settings e = .ok r) : r = e := by
  obtain ⟨flat, flattens, sweeps⟩ := bindOk.1 run
  obtain rfl : flat = e := (flattenRun flattens).trans (flattenOnceFixed flattened)
  refine fixedPointKeeps (P := fun t => t = flat) (fun before stepped => ?_) sweeps rfl
  cases stepped
  rw [before, stable]

theorem Course.settled (course : Course settings e start terms left combined o r) :
    Settled settings.hash o ∧ flattenOnce r = o := by
  have settled := orderOperandsSettled course.orders (shapedFlattened course.normal)
  rw [course.result]
  exact ⟨settled, flattenUnflatten settled.flattened⟩

theorem Course.operands (course : Course settings e start terms left combined o r) (op : AssocOp) :
    ∀ t ∈ o.operandsOf op, t ∈ sortedOperands settings e :=
  fun t mem => course.sorted t (operandsSorted course.orders op t mem)

theorem Course.apartIn {f : Expr} (course : Course settings e start terms left combined o r)
    {start' terms' left' combined' o' : Expr}
    (other : Course settings f start' terms' left' combined' o' s) {known : List Expr}
    (apart : NoCollisions settings.hash known) (within : ∀ t ∈ sortedOperands settings e, t ∈ known)
    (within' : ∀ t ∈ sortedOperands settings f, t ∈ known) : ApartIn settings.hash o o' := by
  refine fun op => apart.part fun t mem => ?_
  rcases List.mem_append.1 mem with mem | mem
  · exact within t (course.operands op t mem)
  · exact within' t (other.operands op t mem)

theorem Course.unique {f : Expr} (course : Course settings e start terms left combined o r)
    {start' terms' left' combined' o' : Expr}
    (other : Course settings f start' terms' left' combined' o' s)
    (apart : NoCollisions settings.hash (sortedOperands settings e ++ sortedOperands settings f))
    (same : Rearranged o o') : r = s := by
  have apartIn := course.apartIn other apart (fun _ => List.mem_append_left _)
    fun _ => List.mem_append_right _
  rw [course.result, other.result, settledUnique course.settled.1 other.settled.1 apartIn same]

theorem Course.termsAgain (course : Course settings e start terms left combined o r)
    {start' terms' left' combined' o' : Expr}
    (again : Course settings r start' terms' left' combined' o' s)
    (numerators : settings.constants = .expand → NoUnitNumerators r) :
    Rearranged terms' (flattenOnce r) := by
  have value : formal terms' = formal r := by
    cases strategy : settings.constants with
    | fold => exact combinedTerms strategy course.shaped again.prepares again.signs
    | expand =>
      exact writtenOutTerms strategy course.plain course.shaped course.written
        (numerators strategy) again.prepares again.signs
  exact formalRearranged again.shapedTerms (normalSigned course.shaped)
    (value.trans (valueFlattenOnce _ r).symm)

theorem Course.again (course : Course settings e start terms left combined o r)
    {start' terms' left' combined' o' : Expr}
    (again : Course settings r start' terms' left' combined' o' s) (all : FullyCancelled r)
    (numerators : settings.constants = .expand → NoUnitNumerators r)
    (apart : NoCollisions settings.hash (sortedOperands settings e ++ sortedOperands settings r)) :
    s = r := by
  have sameTerms := course.termsAgain again numerators
  obtain ⟨settled, flat⟩ := course.settled
  have apartIn := course.apartIn course apart (fun _ => List.mem_append_left _)
    fun _ => List.mem_append_left _
  -- nothing cancels among the terms, for their counterparts in the first form are in order
  have stable : terms'.bottomUp cancelNode = terms' := by
    unfold FullyCancelled at all
    rw [flat] at all sameTerms
    exact stableUnordered (shapedFlattened again.shapedTerms) settled apartIn
      (sameTerms Unordered Unordered.interpretation Unordered.commutative) all
  obtain rfl : left' = terms' :=
    cancelOppositesNothing (shapedFlattened again.shapedTerms) stable again.cancels
  have shaped : Shaped (.normal settings) left' :=
    course.shaped.rearranged (shapedFlattened again.shapedTerms) sameTerms.symm
  have same : Rearranged o' o := by
    rw [flat] at sameTerms
    exact (orderOperandsRearranged again.orders).trans
      ((foldedRearranged shaped again.folds).trans sameTerms)
  exact (course.unique again apart same.symm).symm

theorem normalizedAgain {journal journal' : Journal}
    (run : (normalForm settings e journal).1 = .ok r)
    (again : (normalForm settings r journal').1 = .ok s) (all : FullyCancelled r)
    (numerators : settings.constants = .expand → NoUnitNumerators r)
    (apart : NoCollisions settings.hash (sortedOperands settings e ++ sortedOperands settings r)) :
    s = r := by
  rw [normalFormGives settings e journal] at run
  rw [normalFormGives settings r journal'] at again
  obtain ⟨start, terms, left, combined, o, course⟩ := courseOf run
  obtain ⟨start', terms', left', combined', o', course'⟩ := courseOf again
  exact course.again course' all numerators apart

end Runs

theorem normalizedAgainQuotient : ∃ r s,
    (normalForm expanding quotientByNothing {}).1 = .ok r ∧ (normalForm expanding r {}).1 = .ok s ∧
      FullyCancelled r ∧ NoUnitNumerators r ∧
      NoCollisions expanding.hash
        (sortedOperands expanding quotientByNothing ++ sortedOperands expanding r) ∧ s = r := by
  have run : (normalForm expanding quotientByNothing {}).1 = .ok quotientTaken := by
    rw [expandingByNumbers]
    decide +kernel
  have again : (normalForm expanding quotientTaken {}).1 = .ok quotientTaken := by
    rw [expandingByNumbers]
    decide +kernel
  have all : FullyCancelled quotientTaken := by
    decide +kernel
  have numerators : NoUnitNumerators quotientTaken :=
    .bin nofun (.bin (fun _ => ⟨nofun, nofun⟩) (.neg (.var "y")) (.const 0))
      (.bin (fun _ => ⟨nofun, nofun⟩) (.var "x") (.const 0))
  have apart : NoCollisions expanding.hash
      (sortedOperands expanding quotientByNothing ++ sortedOperands expanding quotientTaken) := by
    refine .ofDistinct ?_
    rw [expandingByNumbers]
    decide +kernel
  exact ⟨quotientTaken, quotientTaken, run, again, all, numerators, apart,
    normalizedAgain run again all (fun _ => numerators) apart⟩

def overNothing : Expr := .bin .mul (.var "x") (.bin .div (.const 1) (.const 0))

/- The same product twice, but below the bar of the first the sum is not yet reduced. -/
def hiddenOpposites : Expr :=
  .bin .sub (.bin .mul (.var "x") (.bin .div (.const 1) (.bin .sub (.var "x") (.var "x")))) overNothing

theorem cancelsOnlyAgain :
    (normalForm {} hiddenOpposites {}).1 = .ok (.bin .add overNothing (.neg overNothing)) ∧
      (normalForm {} (.bin .add overNothing (.neg overNothing)) {}).1 = .ok (.const 0) ∧
      NoCollisions Node.digest (sortedOperands {} hiddenOpposites ++
        sortedOperands {} (.bin .add overNothing (.neg overNothing))) := by
  rw [Node.digestEq]
  refine ⟨?_, ?_, .ofDistinct ?_⟩
  · decide +kernel
  · decide +kernel
  · decide +kernel

def reciprocal : Expr := .bin .div (.const 1) (.var "x")

def withZeroth (e : Expr) : Expr := .bin .add e (.bin .div (.const 0) (.var "x"))

/-- A unit in a numerator is written out, and the sum it becomes multiplied out, by every run. -/
example : (normalForm expanding reciprocal {}).1 = .ok (withZeroth reciprocal) ∧
    (normalForm expanding (withZeroth reciprocal) {}).1 =
      .ok (withZeroth (withZeroth reciprocal)) := by
  rw [expandingByNumbers]
  decide +kernel

end Normalize

end ArithEquiv
