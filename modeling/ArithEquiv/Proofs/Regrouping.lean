import ArithEquiv.Proofs.Desugaring
import ArithEquiv.Proofs.Ledgers

/-! Exchanging operands and regrouping, anywhere in a tree. Where constants are written out both trees
have the same terms when they are multiplied out, so distribution ends in one tree and whatever
follows is the same. Where constants are combined the normal forms may differ: distribution splits
a sum along its left side, before the constants on that side are combined. -/
namespace ArithEquiv

inductive Exchanged : Expr → Expr → Prop where
  | swap (op : AssocOp) (left right : Expr) :
      Exchanged (.bin op.bin left right) (.bin op.bin right left)
  | regroup (op : AssocOp) (first second third : Expr) :
      Exchanged (.bin op.bin (.bin op.bin first second) third)
        (.bin op.bin first (.bin op.bin second third))
  | neg {a b : Expr} (inner : Exchanged a b) : Exchanged (.neg a) (.neg b)
  | left {op : BinOp} {a b right : Expr} (inner : Exchanged a b) :
      Exchanged (.bin op a right) (.bin op b right)
  | right {op : BinOp} {left a b : Expr} (inner : Exchanged a b) :
      Exchanged (.bin op left a) (.bin op left b)
  | operand (op : AssocOp) (front back : List Expr) {a b : Expr} (inner : Exchanged a b) :
      Exchanged (.join op (front ++ a :: back)) (.join op (front ++ b :: back))

open ArithEquiv.Expr

theorem Exchanged.rearranged {a b : Expr} (exchanged : Exchanged a b) : Rearranged a b := by
  intro A i commutes
  induction exchanged with
  | swap op left right => exact commutes op _ _
  | regroup op first second third => exact i.assoc op _ _ _
  | neg _ ih => exact congrArg i.neg ih
  | left _ ih => exact congrArg (fun x => i.bin _ x _) ih
  | right _ ih => exact congrArg (i.bin _ _) ih
  | operand op front back _ ih =>
    refine WithOne.coe_injective ?_
    rw [totalJoin i op (by simp), totalJoin i op (by simp), List.map_append, List.map_append,
      List.map_cons, List.map_cons, ih]

namespace Normalize

section Runs

variable {settings : Settings} {a b p q r s : Expr}

theorem distributedSettled (expand : settings.constants = .expand)
    (run : distributed settings a = .ok p) : ∃ o, p = unflattenOnce o ∧ flattenOnce p = o ∧
      Settled settings.hash o ∧ ∀ op, ∀ t ∈ o.operandsOf op, t ∈ sortedDistributing settings a := by
  have visited := trailEnd run
  obtain ⟨chains, plain, again⟩ := bindOk.1 (fixedPointStable run)
  obtain ⟨crossed, multiplied, last⟩ := bindOk.1 again
  obtain ⟨combined, o, folds, orders, result, sorted⟩ := restructuredOk last
  rw [foldedExpand expand] at folds
  cases folds
  have settled := orderOperandsSettled orders (flattenOnceFlattened crossed)
  refine ⟨o, result, ?_, settled, fun op t mem => ?_⟩
  · rw [result, flattenUnflatten settled.flattened]
  · refine List.mem_flatMap.2 ⟨p, visited, ?_⟩
    rw [plain, fromResult, multiplied, fromResult, sorted]
    exact operandsSorted orders op t mem

theorem distributedAlike (expand : settings.constants = .expand) {div : Prop}
    (writtenA : WrittenIn (plainVocabulary settings div) a)
    (writtenB : WrittenIn (plainVocabulary settings div) b)
    (runA : distributed settings a = .ok p) (runB : distributed settings b = .ok q)
    (same : a.ledger = b.ledger)
    (apart : NoCollisions settings.hash
      (sortedDistributing settings a ++ sortedDistributing settings b)) : p = q := by
  obtain ⟨o, resultP, flatP, settled, sorted⟩ := distributedSettled expand runA
  obtain ⟨o', resultQ, flatQ, settled', sorted'⟩ := distributedSettled expand runB
  have ledgers : o.ledger = o'.ledger := by
    rw [← flatP, ← flatQ, ledger, ledger, valueFlattenOnce, valueFlattenOnce, ← ledger, ← ledger,
      ← distributedLedger expand runA, ← distributedLedger expand runB, same]
  have shaped := distributedShaped runA writtenA
  have shaped' := distributedShaped runB writtenB
  rw [flatP] at shaped
  rw [flatQ] at shaped'
  have unordered : o.unordered = o'.unordered := by
    rw [← (shapedReadOff id shaped).whole, ledgers, (shapedReadOff id shaped').whole]
  have apartIn : ApartIn settings.hash o o' := fun op => apart.part fun t mem => by
    rcases List.mem_append.1 mem with mem | mem
    · exact List.mem_append_left _ (sorted op t mem)
    · exact List.mem_append_right _ (sorted' op t mem)
  rw [resultP, resultQ, unorderedInjective settled settled' apartIn unordered]

theorem sortedOperandsDistributing {start : Expr} (prepares : prepared settings a = .ok start) :
    ∀ t ∈ sortedDistributing settings start, t ∈ sortedOperands settings a := by
  intro t mem
  rw [sortedOperands, prepares, fromResult]
  exact List.mem_append_left _ (List.mem_append_left _ mem)

theorem normalizedAlike (expand : settings.constants = .expand) (same : Rearranged a b)
    (runA : normalized settings a = .ok r) (runB : normalized settings b = .ok s)
    (apart : NoCollisions settings.hash (sortedOperands settings a ++ sortedOperands settings b)) :
    r = s := by
  obtain ⟨start, preparesA, restA⟩ := bindOk.1 runA
  obtain ⟨terms, signsA, lastA⟩ := bindOk.1 restA
  obtain ⟨start', preparesB, restB⟩ := bindOk.1 runB
  obtain ⟨terms', signsB, lastB⟩ := bindOk.1 restB
  obtain ⟨p, distributesA, signsA⟩ := bindOk.1 signsA
  obtain ⟨q, distributesB, signsB⟩ := bindOk.1 signsB
  have ledgers : start.ledger = start'.ledger :=
    preparedRearranged same preparesA preparesB Ledger Ledger.interpretation Ledger.commutative
  obtain rfl : p = q := by
    refine distributedAlike expand (preparedWritten (writtenAny a) preparesA)
      (preparedWritten (writtenAny b) preparesB) distributesA distributesB ledgers
      (apart.part fun t mem => ?_)
    rcases List.mem_append.1 mem with mem | mem
    · exact List.mem_append_left _ (sortedOperandsDistributing preparesA t mem)
    · exact List.mem_append_right _ (sortedOperandsDistributing preparesB t mem)
  obtain rfl : terms = terms' := Except.ok.inj (signsA.symm.trans signsB)
  exact Except.ok.inj (lastA.symm.trans lastB)

end Runs

theorem exchangedAlike {settings : Settings} (expand : settings.constants = .expand)
    {a b r s : Expr} {journal journal' : Journal} (exchanged : Exchanged a b)
    (runA : (normalForm settings a journal).1 = .ok r)
    (runB : (normalForm settings b journal').1 = .ok s)
    (apart : NoCollisions settings.hash (sortedOperands settings a ++ sortedOperands settings b)) :
    r = s := by
  rw [normalFormGives settings a journal] at runA
  rw [normalFormGives settings b journal'] at runB
  exact normalizedAlike expand exchanged.rearranged runA runB apart

def sumOver : Expr := .bin .div (.bin .add (.var "x") (.var "y")) (.var "z")

def sumTurnedOver : Expr := .bin .div (.bin .add (.var "y") (.var "x")) (.var "z")

def quotients : Expr :=
  .bin .add (.bin .div (.var "x") (.var "z")) (.bin .div (.var "y") (.var "z"))

theorem exchangedAlikeOver : ∃ r s, Exchanged sumOver sumTurnedOver ∧
    (normalForm expanding sumOver {}).1 = .ok r ∧
    (normalForm expanding sumTurnedOver {}).1 = .ok s ∧
    NoCollisions expanding.hash
      (sortedOperands expanding sumOver ++ sortedOperands expanding sumTurnedOver) ∧ r = s := by
  have exchanged : Exchanged sumOver sumTurnedOver := .left (.swap .add (.var "x") (.var "y"))
  have runA : (normalForm expanding sumOver {}).1 = .ok quotients := by
    rw [expandingByNumbers]
    decide +kernel
  have runB : (normalForm expanding sumTurnedOver {}).1 = .ok quotients := by
    rw [expandingByNumbers]
    decide +kernel
  have apart : NoCollisions expanding.hash
      (sortedOperands expanding sumOver ++ sortedOperands expanding sumTurnedOver) := by
    refine .ofDistinct ?_
    rw [expandingByNumbers]
    decide +kernel
  exact ⟨quotients, quotients, exchanged, runA, runB, apart,
    exchangedAlike rfl exchanged runA runB apart⟩

/- A sum of three in a product, grouped so that its constants are combined before it is multiplied
out, and so that they are multiplied out one by one. -/
def groupedRight : Expr :=
  .bin .mul (.bin .add (.var "y") (.bin .add (.const 1) (.const 1))) (.var "x")

def groupedLeft : Expr :=
  .bin .mul (.bin .add (.bin .add (.var "y") (.const 1)) (.const 1)) (.var "x")

theorem regroupedApart : Exchanged groupedLeft groupedRight ∧ ∃ r s, r ≠ s ∧
    (normalForm {} groupedLeft {}).1 = .ok r ∧ (normalForm {} groupedRight {}).1 = .ok s ∧
    NoCollisions Node.digest (sortedOperands {} groupedLeft ++ sortedOperands {} groupedRight) := by
  refine ⟨.left (.regroup .add (.var "y") (.const 1) (.const 1)),
    .bin .add (.bin .add (.var "x") (.var "x")) (.bin .mul (.var "x") (.var "y")),
    .bin .add (.bin .mul (.var "x") (.const 2)) (.bin .mul (.var "x") (.var "y")), ?_⟩
  rw [Node.digestEq]
  refine ⟨?_, ?_, ?_, .ofDistinct ?_⟩
  · decide +kernel
  · decide +kernel
  · decide +kernel
  · decide +kernel

end Normalize

end ArithEquiv
