import ArithEquiv.Proofs.Blending
import ArithEquiv.Proofs.Remainders
import ArithEquiv.Proofs.Scaling

/-! Zeros, ones and double negations around a tree. Where constants are combined they are gone after
the first round of multiplying out, and from then on both runs go through the same trees. Where
constants are written out they stay in the terms until signs are taken in front; the terms that are
left are the same, though not in the same places, and the last sort makes one tree of them. -/
namespace ArithEquiv.Normalize

open ArithEquiv.Expr Interpretation

section Folding

variable {settings : Settings} {e a b c r s : Expr}

theorem preparedFold (fold : settings.constants = .fold) :
    prepared settings e = .ok (negToMul (subToAdd e)) := by
  unfold prepared
  rw [fold]

theorem crossedPlain (fold : settings.constants = .fold) (run : crossed settings e = .ok c) :
    WrittenIn (plainVocabulary settings True) c := by
  refine (Vocabulary.compatible _).bottomUpM distributeNodeWritten run ?_
  rw [valueUnflattenOnce]
  exact preparedWritten (writtenAny e) (preparedFold fold)

theorem restructuredMeans (fold : settings.constants = .fold)
    (plain : WrittenIn (plainVocabulary settings True) c) (run : restructured settings c = .ok r) :
    ∃ o, orderOperands settings (c.value blending.desugared).1 = .ok o ∧ r = unflattenOnce o := by
  obtain ⟨combined, o, folds, orders, result, _⟩ := restructuredOk run
  unfold folded at folds
  rw [fold] at folds
  have means := foldConstantsBlends folds (flattenOnceFlattened c)
  rw [valueFlattenOnce, ← desugaredWritten blending id id plain] at means
  exact ⟨o, by rw [means, orders], result⟩

theorem restructuredSame (fold : settings.constants = .fold)
    (plainA : WrittenIn (plainVocabulary settings True) a)
    (plainB : WrittenIn (plainVocabulary settings True) b)
    (runA : restructured settings a = .ok r) (runB : restructured settings b = .ok s)
    (same : a.value blending.desugared = b.value blending.desugared) : r = s := by
  obtain ⟨o, orders, rfl⟩ := restructuredMeans fold plainA runA
  obtain ⟨o', orders', rfl⟩ := restructuredMeans fold plainB runB
  rw [same] at orders
  rw [Except.ok.inj (orders.symm.trans orders')]

theorem firstRound (run : distributedOnce settings (negToMul (subToAdd e)) = .ok r) :
    ∃ c, crossed settings e = .ok c ∧ restructured settings c = .ok r := by
  obtain ⟨chains, plain, run⟩ := bindOk.1 run
  obtain ⟨c, crosses, last⟩ := bindOk.1 run
  rw [unflattenRun plain] at crosses
  exact ⟨c, crosses, last⟩

theorem fixedPointAlike {pass : String} {step : Expr → Except Fault Expr}
    (meet : ∀ {a' b'}, step a = .ok a' → step b = .ok b' → a' = b')
    (runA : toFixedPoint settings pass step a = .ok r)
    (runB : toFixedPoint settings pass step b = .ok s) : r = s := by
  obtain ⟨reachesA, stableA⟩ := fixedPointReaches runA
  obtain ⟨reachesB, stableB⟩ := fixedPointReaches runB
  have either := stableTogether (R := fun x y => x = a ∧ y = b ∨ x = y)
    (fun {x y x' y'} related nextX nextY => .inr ?_) reachesA stableA reachesB stableB
    (.inl ⟨rfl, rfl⟩)
  · rcases either with ⟨rfl, rfl⟩ | same
    · exact meet stableA stableB
    · exact same
  · rcases related with ⟨rfl, rfl⟩ | rfl
    · exact meet nextX nextY
    · exact Except.ok.inj (nextX.symm.trans nextY)

theorem combinedAlike (fold : settings.constants = .fold)
    (same : ∀ {c d}, crossed settings a = .ok c → crossed settings b = .ok d →
      c.value blending.desugared = d.value blending.desugared)
    (runA : normalized settings a = .ok r) (runB : normalized settings b = .ok s) : r = s := by
  obtain ⟨start, preparesA, restA⟩ := bindOk.1 runA
  obtain ⟨terms, signsA, lastA⟩ := bindOk.1 restA
  obtain ⟨start', preparesB, restB⟩ := bindOk.1 runB
  obtain ⟨terms', signsB, lastB⟩ := bindOk.1 restB
  obtain ⟨p, distributesA, cleansA⟩ := bindOk.1 signsA
  obtain ⟨q, distributesB, cleansB⟩ := bindOk.1 signsB
  cases (preparedFold fold).symm.trans preparesA
  cases (preparedFold fold).symm.trans preparesB
  obtain rfl : p = q := by
    refine fixedPointAlike (fun stepA stepB => ?_) distributesA distributesB
    obtain ⟨c, crossesA, restA⟩ := firstRound stepA
    obtain ⟨d, crossesB, restB⟩ := firstRound stepB
    exact restructuredSame fold (crossedPlain fold crossesA) (crossedPlain fold crossesB)
      restA restB (same crossesA crossesB)
  obtain rfl : terms = terms' := Except.ok.inj (cleansA.symm.trans cleansB)
  exact Except.ok.inj (lastA.symm.trans lastB)

theorem combinedZero (fold : settings.constants = .fold)
    (zero : ∀ {c}, crossed settings a = .ok c →
      c.value blending.desugared = blending.desugared.const 0)
    (run : normalized settings a = .ok r) : r = .const 0 := by
  obtain ⟨start, prepares, run⟩ := bindOk.1 run
  obtain ⟨terms, signs, run⟩ := bindOk.1 run
  obtain ⟨p, distributes, signs⟩ := bindOk.1 signs
  cases (preparedFold fold).symm.trans prepares
  obtain rfl : p = .const 0 := by
    refine fixedPointSettles (fun step => ?_) distributedOnceAlone distributes
    obtain ⟨c, crosses, last⟩ := firstRound step
    obtain ⟨o, orders, rfl⟩ := restructuredMeans fold (crossedPlain fold crosses) last
    rw [zero crosses] at orders
    obtain rfl := orderOperandsAlone orders
    exact unflattenConst 0
  obtain rfl := signedAlone signs
  exact zeroLeft run

end Folding

section Expanding

variable {settings : Settings} {e a start : Expr}

noncomputable def onesLedger (e : Expr) : Ledger :=
  e.value Ledger.interpretation.desugared.writingOut

theorem preparedLedger (expand : settings.constants = .expand)
    (run : prepared settings e = .ok start) : start.ledger = onesLedger e := by
  have means := preparedMeans Ledger.interpretation run
  rw [Interpretation.preparing, expand] at means
  exact means

theorem onesLedgerZero : onesLedger (.const 0) = {{zeroCode}} := rfl

theorem onesLedgerOne : onesLedger (.const 1) = {{zeroCode}} + {{unitCode}} := rfl

theorem onesLedgerNeg (arg : Expr) :
    onesLedger (.neg arg) = Ledger.cross {{minusOne}} (onesLedger arg) := rfl

theorem onesLedgerAdd (left right : Expr) :
    onesLedger (.bin .add left right) = onesLedger left + onesLedger right := rfl

theorem onesLedgerSub (left right : Expr) : onesLedger (.bin .sub left right) =
    onesLedger left + Ledger.cross {{minusOne}} (onesLedger right) := rfl

theorem onesLedgerMul (left right : Expr) :
    onesLedger (.bin .mul left right) = Ledger.cross (onesLedger left) (onesLedger right) := rfl

theorem remaindersTimesUnit (x : Ledger) :
    remainders (Ledger.cross x (onesLedger (.const 1))) = remainders x := by
  rw [onesLedgerOne, Ledger.crossAdd, remaindersAdd, Ledger.crossComm x, remaindersZero,
    Ledger.crossComm x, remaindersUnit, zero_add]

theorem neutralRemainders (neutral : Neutral e a) :
    remainders (onesLedger a) = remainders (onesLedger e) := by
  cases neutral with
  | same => rfl
  | timesOne => rw [onesLedgerMul, remaindersTimesUnit]
  | oneTimes => rw [onesLedgerMul, Ledger.crossComm, remaindersTimesUnit]
  | plusZero => rw [onesLedgerAdd, remaindersAdd, onesLedgerZero, remaindersNone, add_zero]
  | zeroPlus => rw [onesLedgerAdd, remaindersAdd, onesLedgerZero, remaindersNone, zero_add]
  | minusZero =>
    rw [onesLedgerSub, remaindersAdd, onesLedgerZero, Ledger.crossComm, remaindersZero, add_zero]
  | negatedTwice =>
    rw [onesLedgerNeg, onesLedgerNeg, remaindersMinusOne, remaindersMinusOne, Multiset.map_map]
    exact (Multiset.map_congr rfl fun t _ => Spelling.oppositeTwice t).trans (Multiset.map_id _)

theorem opposedRemainders (opposed : Opposed e a) :
    remainders (onesLedger a) = (remainders (onesLedger e)).map Spelling.opposite := by
  cases opposed with
  | negation => rw [onesLedgerNeg, remaindersMinusOne]
  | zeroMinus =>
    rw [onesLedgerSub, remaindersAdd, onesLedgerZero, remaindersNone, zero_add, remaindersMinusOne]

theorem annihilatedRemainders (annihilated : Annihilated e a) : remainders (onesLedger a) = 0 := by
  cases annihilated with
  | timesZero => rw [onesLedgerMul, onesLedgerZero, Ledger.crossComm, remaindersZero]
  | zeroTimes => rw [onesLedgerMul, onesLedgerZero, remaindersZero]

end Expanding

section NormalForms

variable {settings : Settings} {e a b r s : Expr}

theorem crossedAlike
    (multiplied : ∀ {c d}, crossed settings a = .ok c → crossed settings b = .ok d →
      c.value blending.desugared = d.value blending.desugared)
    (writtenOut : remainders (onesLedger a) = remainders (onesLedger b))
    (runA : normalized settings a = .ok r) (runB : normalized settings b = .ok s)
    (apart : NoCollisions settings.hash (sortedOperands settings a ++ sortedOperands settings b)) :
    r = s := by
  cases strategy : settings.constants with
  | fold => exact combinedAlike strategy multiplied runA runB
  | expand =>
    refine writtenOutAlike strategy (fun preparesA preparesB => ?_) runA runB apart
    rw [preparedLedger strategy preparesA, preparedLedger strategy preparesB, writtenOut]

theorem neutralNormalized (onA : Neutral e a) (onB : Neutral e b)
    (runA : normalized settings a = .ok r) (runB : normalized settings b = .ok s)
    (apart : NoCollisions settings.hash (sortedOperands settings a ++ sortedOperands settings b)) :
    r = s := by
  have writtenOut := (neutralRemainders onA).trans (neutralRemainders onB).symm
  refine crossedAlike (fun crossesA crossesB => ?_) writtenOut runA runB apart
  obtain ⟨d, inner, same⟩ := neutralCrossed blendingLaws onA crossesA
  obtain ⟨d', inner', same'⟩ := neutralCrossed blendingLaws onB crossesB
  rw [same, same', Except.ok.inj (inner.symm.trans inner')]

theorem opposedNormalized (onA : Opposed e a) (onB : Opposed e b)
    (runA : normalized settings a = .ok r) (runB : normalized settings b = .ok s)
    (apart : NoCollisions settings.hash (sortedOperands settings a ++ sortedOperands settings b)) :
    r = s := by
  have writtenOut := (opposedRemainders onA).trans (opposedRemainders onB).symm
  refine crossedAlike (fun crossesA crossesB => ?_) writtenOut runA runB apart
  obtain ⟨d, inner, same⟩ := opposedCrossed blendingLaws onA crossesA
  obtain ⟨d', inner', same'⟩ := opposedCrossed blendingLaws onB crossesB
  rw [same, same', Except.ok.inj (inner.symm.trans inner')]

theorem annihilatedNormalized (annihilated : Annihilated e a)
    (run : normalized settings a = .ok r) : r = .const 0 := by
  cases strategy : settings.constants with
  | fold => exact combinedZero strategy (annihilatedCrossed blendingLaws annihilated) run
  | expand =>
    refine writtenOutZero strategy (fun prepares => ?_) run
    rw [preparedLedger strategy prepares, annihilatedRemainders annihilated]

end NormalForms

theorem neutralElements (settings : Settings) (e : Expr) :
    (∀ {a b r s : Expr} {journal journal' : Journal}, Neutral e a → Neutral e b →
      (normalForm settings a journal).1 = .ok r → (normalForm settings b journal').1 = .ok s →
      NoCollisions settings.hash (sortedOperands settings a ++ sortedOperands settings b) → r = s) ∧
    (∀ {a b r s : Expr} {journal journal' : Journal}, Opposed e a → Opposed e b →
      (normalForm settings a journal).1 = .ok r → (normalForm settings b journal').1 = .ok s →
      NoCollisions settings.hash (sortedOperands settings a ++ sortedOperands settings b) → r = s) ∧
    ∀ {a r : Expr} {journal : Journal}, Annihilated e a →
      (normalForm settings a journal).1 = .ok r → r = .const 0 := by
  refine ⟨?_, ?_, ?_⟩
  · intro a b r s journal journal' onA onB runA runB apart
    rw [normalFormGives] at runA runB
    exact neutralNormalized onA onB runA runB apart
  · intro a b r s journal journal' onA onB runA runB apart
    rw [normalFormGives] at runA runB
    exact opposedNormalized onA onB runA runB apart
  · intro a r journal annihilated run
    rw [normalFormGives] at run
    exact annihilatedNormalized annihilated run

def sumOfNames : Expr := .bin .add (.var "x") (.var "y")

def productOfNames : Expr := .bin .mul (.var "x") (.var "y")

theorem neutralElementsNames :
    (∃ a b r s, Neutral sumOfNames a ∧ Neutral sumOfNames b ∧
      (normalForm expanding a {}).1 = .ok r ∧ (normalForm expanding b {}).1 = .ok s ∧
      NoCollisions expanding.hash (sortedOperands expanding a ++ sortedOperands expanding b) ∧
      r = s) ∧
    (∃ a b r s, Opposed productOfNames a ∧ Opposed productOfNames b ∧
      (normalForm {} a {}).1 = .ok r ∧ (normalForm {} b {}).1 = .ok s ∧
      NoCollisions Node.digest (sortedOperands {} a ++ sortedOperands {} b) ∧ r = s) ∧
    ∃ a r, Annihilated sumOfNames a ∧ (normalForm expanding a {}).1 = .ok r ∧ r = .const 0 := by
  have plain : (normalForm expanding sumOfNames {}).1 = .ok sumOfNames := by
    rw [expandingByNumbers]
    decide +kernel
  have timesOne : (normalForm expanding (.bin .mul sumOfNames (.const 1)) {}).1 =
      .ok sumOfNames := by
    rw [expandingByNumbers]
    decide +kernel
  have apart : NoCollisions expanding.hash (sortedOperands expanding sumOfNames ++
      sortedOperands expanding (.bin .mul sumOfNames (.const 1))) := by
    refine .ofDistinct ?_
    rw [expandingByNumbers]
    decide +kernel
  have negated : (normalForm {} (.neg productOfNames) {}).1 = .ok (.neg productOfNames) := by
    rw [Node.digestEq]
    decide +kernel
  have zeroMinus : (normalForm {} (.bin .sub (.const 0) productOfNames) {}).1 =
      .ok (.neg productOfNames) := by
    rw [Node.digestEq]
    decide +kernel
  have apart' : NoCollisions Node.digest (sortedOperands {} (.neg productOfNames) ++
      sortedOperands {} (.bin .sub (.const 0) productOfNames)) := by
    refine .ofDistinct ?_
    rw [Node.digestEq]
    decide +kernel
  have zeroTimes : (normalForm expanding (.bin .mul (.const 0) sumOfNames) {}).1 =
      .ok (.const 0) := by
    rw [expandingByNumbers]
    decide +kernel
  refine ⟨⟨_, _, sumOfNames, sumOfNames, .same, .timesOne, plain, timesOne, apart, ?_⟩,
    ⟨_, _, .neg productOfNames, .neg productOfNames, .negation, .zeroMinus, negated, zeroMinus,
      apart', ?_⟩,
    _, .const 0, .zeroTimes, zeroTimes, ?_⟩
  · exact (neutralElements expanding sumOfNames).1 .same .timesOne plain timesOne apart
  · exact (neutralElements {} productOfNames).2.1 .negation .zeroMinus negated zeroMinus apart'
  · exact (neutralElements expanding sumOfNames).2.2 .zeroTimes zeroTimes

end ArithEquiv.Normalize
