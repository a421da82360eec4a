import ArithEquiv.Proofs.Soundness
import ArithEquiv.Proofs.Stages

/-! Trees of integers. Where constants are combined, multiplying out once and restructuring leaves one
constant of a tree without names and quotients, whatever was distributed: from the leaves up every
operand of a flat call is a constant, and no sum or product of constants is left. The passes that
follow leave a constant alone, and as all of them keep values it is the value of the tree. -/
namespace ArithEquiv

namespace Expr

inductive Integral : Expr → Prop where
  | const (n : Int) : Integral (.const n)
  | neg {arg : Expr} (inner : Integral arg) : Integral (.neg arg)
  | bin {op : BinOp} {left right : Expr} (other : op ≠ .div) (onLeft : Integral left)
      (onRight : Integral right) : Integral (.bin op left right)
  | flat {op : AssocOp} {first second : Expr} {rest : List Expr}
      (each : ∀ e ∈ first :: second :: rest, Integral e) : Integral (.flat op first second rest)

end Expr

def wholeness : Interpretation Prop where
  const _ := True
  var _ := False
  neg p := p
  bin
    | .div => fun _ _ => False
    | _ => fun p q => p ∧ q
  assoc op p q r := by cases op <;> exact propext and_assoc

theorem wholenessCompatible : wholeness.Compatible fun p q => p → q where
  refl _ := id
  trans h g := g ∘ h
  neg h := h
  bin op _ _ _ _ h g := by
    cases op with
    | div => exact id
    | _ => exact And.imp h g

namespace Expr

def Whole (e : Expr) : Prop := e.value wholeness

theorem wholeFlat {op : AssocOp} {first second : Expr} {rest : List Expr} :
    Whole (.flat op first second rest) ↔ ∀ e ∈ first :: second :: rest, Whole e := by
  have chains : ∀ (rest : List Expr) (before : Prop),
      wholeness.chain op before (rest.map (value wholeness)) ↔ before ∧ ∀ e ∈ rest, Whole e := by
    intro rest
    induction rest with
    | nil => exact fun before => ⟨fun h => ⟨h, by simp⟩, And.left⟩
    | cons e rest ih =>
      intro before
      refine (ih _).trans ?_
      rw [List.forall_mem_cons, ← and_assoc]
      cases op <;> exact Iff.rfl
  rw [Whole, valueFlat, chains]
  exact List.forall_mem_cons.symm

theorem Integral.whole {e : Expr} (integral : Integral e) : Whole e := by
  induction integral with
  | const n => trivial
  | neg _ ih => exact ih
  | @bin op _ _ other _ _ ihl ihr =>
    cases op with
    | div => exact absurd rfl other
    | _ => exact ⟨ihl, ihr⟩
  | flat _ ih => exact wholeFlat.2 ih

end Expr

namespace Normalize

open ArithEquiv.Expr

section Sweeps

variable {settings : Settings} {e r : Expr}

theorem preparedWhole (fold : settings.constants = .fold) (run : prepared settings e = .ok r)
    (whole : Whole e) : Whole r := by
  unfold prepared at run
  rw [fold] at run
  cases run
  refine wholenessCompatible.bottomUp (fun t => ?_) (subToAdd e) ?_
  · unfold negToMulNode
    split
    · exact fun inner => ⟨trivial, inner⟩
    · exact id
  · refine wholenessCompatible.bottomUp (fun t => ?_) e whole
    unfold subToAddNode
    split <;> exact id

theorem wholenessLinear {F : Prop → Prop} (shared : ∀ p q, F (p ∧ q) = (F p ∧ F q)) (e : Expr) :
    (Summands.ofExpr e).Linear wholeness F := by
  cases split : Summands.ofExpr e with
  | single term => trivial
  | chain op first rest => rcases ofExprOp split with rfl | rfl <;> exact shared

theorem distributeNodeWhole (run : distributeNode settings e = .ok r) (whole : Whole e) : Whole r := by
  have same : e.value wholeness = r.value wholeness := by
    refine distributeNodeKept run (fun k t => wholenessLinear (fun p q => propext ?_) t)
      (fun k t => wholenessLinear (fun p q => propext ?_) t)
      fun n d _ _ z => wholenessLinear (fun p q => propext ?_) n
    · exact and_and_left
    · exact and_and_right
    · exact and_self_iff.symm
  exact same.mp whole

theorem foldsToConstant {op : AssocOp} {es : List Expr} (folds : FoldsTo op (drawnIn op es) r)
    (each : ∀ e ∈ es, ∃ n, e = .const n) : ∃ n, r = .const n := by
  have none : others (drawnIn op es) = [] := by
    refine List.filter_eq_nil_iff.2 fun t mem => ?_
    obtain ⟨e, member, drawn⟩ := List.mem_flatMap.1 mem
    obtain ⟨n, rfl⟩ := each e member
    obtain rfl := List.mem_singleton.1 drawn
    simp [Expr.const?]
  cases folds with
  | zero _ _ => exact ⟨0, rfl⟩
  | identity _ => exact ⟨op.identity, by rw [none]; rfl⟩
  | constant _ _ => exact ⟨_, by rw [none]; rfl⟩

theorem foldSweepConstant (flattened : Flattened e)
    (plain : WrittenIn (plainVocabulary settings True) e) (whole : Whole e)
    (run : e.bottomUpM foldConstantsNode = .ok r) : ∃ n, r = .const n := by
  refine bottomUpInduction (P := fun e r => Flattened e → WrittenIn (plainVocabulary settings True) e →
    Whole e → ∃ n, r = .const n) ?_ ?_ ?_ ?_ ?_ run flattened plain whole
  · intro n r last _ _ _
    cases last
    exact ⟨n, rfl⟩
  · intro name r _ _ _ none
    exact none.elim
  · intro arg a r _ _ _ plain
    exact plain.1.elim
  · intro op left right l r' r _ _ _ flattened plain whole
    cases flattened with
    | bin other _ _ =>
      cases op with
      | sub => exact plain.1.elim
      | div => exact whole.elim
      | _ => cases other
  · intro op first second rest a b more r worked last flattened plain whole
    cases flattened with
    | flat each _ =>
      refine foldsToConstant (foldConstantsNodeOk last) fun t mem => ?_
      obtain ⟨e, member, made⟩ := forallTwoRight worked mem
      exact made (each e member) (writtenFlat.1 plain e member) (wholeFlat.1 whole e member)

theorem constantPlain (fold : settings.constants = .fold) (n : Int) :
    WrittenIn (plainVocabulary settings True) (.const n) := by
  intro expand
  rw [fold] at expand
  cases expand

end Sweeps

section Runs

variable {settings : Settings} {pass : String} {step : Expr → Except Fault Expr} {e r : Expr}

theorem fixedPointConstant {P : Expr → Prop} (constant : ∀ n, P (.const n))
    (collapses : ∀ {a b}, P a → step a = .ok b → ∃ n, b = .const n)
    (run : toFixedPoint settings pass step e = .ok r) (holds : P e) : ∃ n, r = .const n := by
  have kept : P r := by
    refine fixedPointKeeps (fun {a b} before stepped => ?_) run holds
    obtain ⟨n, rfl⟩ := collapses before stepped
    exact constant n
  exact collapses kept (fixedPointStable run)

theorem fixedPointSettles {t : Expr} (first : ∀ {x}, step e = .ok x → x = t)
    (stays : ∀ {x}, step t = .ok x → x = t) (run : toFixedPoint settings pass step e = .ok r) :
    r = t := by
  have either : r = e ∨ r = t := by
    refine fixedPointKeeps (P := fun x => x = e ∨ x = t) (fun before stepped => .inr ?_) run
      (.inl rfl)
    rcases before with rfl | rfl
    · exact first stepped
    · exact stays stepped
  rcases either with rfl | same
  · exact first (fixedPointStable run)
  · exact same

theorem fixedPointAlone {n : Int} (alone : ∀ r, step (.const n) = .ok r → r = .const n)
    (run : toFixedPoint settings pass step (.const n) = .ok r) : r = .const n :=
  fixedPointSettles (alone _) (alone _) run

theorem foldConstantsConstant (flattened : Flattened e)
    (plain : WrittenIn (plainVocabulary settings True) e) (whole : Whole e)
    (fold : settings.constants = .fold) (run : foldConstants settings e = .ok r) :
    ∃ n, r = .const n := by
  refine fixedPointConstant (P := fun t => Flattened t ∧
    WrittenIn (plainVocabulary settings True) t ∧ Whole t) (fun n => ?_) (fun holds stepped => ?_) run
    ⟨flattened, plain, whole⟩
  · exact ⟨.const n, constantPlain fold n, trivial⟩
  · exact foldSweepConstant holds.1 holds.2.1 holds.2.2 stepped

theorem orderOperandsAlone {n : Int} (run : orderOperands settings (.const n) = .ok r) :
    r = .const n := by
  refine fixedPointAlone (fun r stepped => ?_) run
  obtain ⟨sums, first, second⟩ := bindOk.1 stepped
  obtain rfl : sums = .const n := (orderSumsRun first).trans (orderConst _ _ n)
  exact (orderProductsRun second).trans (orderConst _ _ n)

theorem restructuredConstant (fold : settings.constants = .fold)
    (plain : WrittenIn (plainVocabulary settings True) e) (whole : Whole e)
    (run : restructured settings e = .ok r) : ∃ n, r = .const n := by
  obtain ⟨combined, o, folds, orders, rfl, _⟩ := restructuredOk run
  unfold folded at folds
  rw [fold] at folds
  have flatPlain : WrittenIn (plainVocabulary settings True) (flattenOnce e) := by
    rwa [WrittenIn, valueFlattenOnce]
  have flatWhole : Whole (flattenOnce e) := by
    rwa [Whole, valueFlattenOnce]
  obtain ⟨n, rfl⟩ :=
    foldConstantsConstant (flattenOnceFlattened e) flatPlain flatWhole fold folds
  obtain rfl := orderOperandsAlone orders
  exact ⟨n, bottomUpConst _ _⟩

theorem distributedConstant (fold : settings.constants = .fold)
    (plain : WrittenIn (plainVocabulary settings True) e) (whole : Whole e)
    (run : distributed settings e = .ok r) : ∃ n, r = .const n := by
  refine fixedPointConstant (P := fun t => WrittenIn (plainVocabulary settings True) t ∧ Whole t)
    (fun n => ?_) (fun {a b} holds stepped => ?_) run ⟨plain, whole⟩
  · exact ⟨constantPlain fold n, trivial⟩
  · obtain ⟨chains, unflattened, again⟩ := bindOk.1 stepped
    obtain ⟨crossed, multiplied, last⟩ := bindOk.1 again
    refine restructuredConstant fold
      ((Vocabulary.compatible _).bottomUpM distributeNodeWritten multiplied ?_)
      (wholenessCompatible.bottomUpM distributeNodeWhole multiplied ?_) last
    · rw [unflattenValue _ unflattened]
      exact holds.1
    · rw [unflattenValue _ unflattened]
      exact holds.2

theorem signsAlone {n : Int} (run : cleanSigns settings (.const n) = .ok r) : r = .const n := by
  obtain ⟨flat, flattens, run⟩ := bindOk.1 run
  obtain ⟨ordered, orders, last⟩ := bindOk.1 run
  obtain rfl : flat = .const n := (flattenRun flattens).trans (flattenConst n)
  obtain rfl : ordered = .const n := (orderProductsRun orders).trans (orderConst _ _ n)
  rw [bottomUpConst] at last
  exact (unflattenRun last).trans (bottomUpConst _ _)

theorem unitsAlone {n : Int} (run : cleanUnits settings (.const n) = .ok r) : r = .const n := by
  refine fixedPointAlone (fun r stepped => ?_) run
  rw [bottomUpMConst] at stepped
  exact (Except.ok.inj stepped).symm

theorem sweptAlone {n : Int} {g : Expr → Expr} (alone : g (.const n) = .const n)
    (run : (do
      let flat ← flatten settings (.const n)
      toFixedPoint settings pass (fun e => pure (e.bottomUp g)) flat) = Except.ok r) :
    r = .const n := by
  obtain ⟨flat, flattens, sweeps⟩ := bindOk.1 run
  obtain rfl : flat = .const n := (flattenRun flattens).trans (flattenConst n)
  refine fixedPointAlone (fun r stepped => ?_) sweeps
  rw [bottomUpConst, alone] at stepped
  exact (Except.ok.inj stepped).symm

theorem signedAlone {n : Int} (run : (do
      let reduced ← cleanSigns settings (.const n)
      let units ← cleanUnits settings reduced
      takeSigns settings units) = Except.ok r) : r = .const n := by
  obtain ⟨reduced, reduces, run⟩ := bindOk.1 run
  obtain ⟨units, cleans, takes⟩ := bindOk.1 run
  obtain rfl := signsAlone reduces
  obtain rfl := unitsAlone cleans
  exact sweptAlone rfl takes

theorem restructuredAlone {n : Int} (run : restructured settings (.const n) = .ok r) :
    r = .const n := by
  obtain ⟨combined, o, folds, orders, rfl, _⟩ := restructuredOk run
  rw [flattenConst] at folds
  obtain rfl : combined = .const n := by
    unfold folded at folds
    split at folds
    · refine fixedPointAlone (fun r stepped => ?_) folds
      rw [bottomUpMConst] at stepped
      exact (Except.ok.inj stepped).symm
    · exact (Except.ok.inj folds).symm
  obtain rfl := orderOperandsAlone orders
  exact unflattenConst n

theorem distributedOnceAlone {n : Int} (run : distributedOnce settings (.const n) = .ok r) :
    r = .const n := by
  obtain ⟨chains, plain, run⟩ := bindOk.1 run
  obtain ⟨products, multiplies, last⟩ := bindOk.1 run
  rw [unflattenRun plain, unflattenConst, bottomUpMConst] at multiplies
  cases multiplies
  exact restructuredAlone last

theorem zeroLeft (run : (do
      let left ← cancelOpposites settings (.const 0)
      restructured settings left) = Except.ok r) : r = .const 0 := by
  obtain ⟨left, cancels, last⟩ := bindOk.1 run
  obtain rfl := sweptAlone rfl cancels
  exact restructuredAlone last

theorem normalizedConstant (fold : settings.constants = .fold) (whole : Whole e)
    (run : normalized settings e = .ok r) : ∃ n, r = .const n := by
  obtain ⟨start, prepares, run⟩ := bindOk.1 run
  obtain ⟨terms, signs, run⟩ := bindOk.1 run
  obtain ⟨left, cancels, last⟩ := bindOk.1 run
  obtain ⟨products, distributes, signs⟩ := bindOk.1 signs
  obtain ⟨n, rfl⟩ := distributedConstant fold (preparedWritten (writtenAny e) prepares)
    (preparedWhole fold prepares whole) distributes
  obtain rfl := signedAlone signs
  obtain rfl := sweptAlone rfl cancels
  exact restructuredConstant fold (constantPlain fold n) trivial last

theorem normalizedInteger (fold : settings.constants = .fold) (integral : e.Integral)
    (run : normalized settings e = .ok r) (m : Meaning Int) : r = .const (m.value e) := by
  obtain ⟨n, rfl⟩ := normalizedConstant fold integral.whole run
  have kept := normalizedValue m.exact run
  rw [m.arithmeticValue, m.arithmeticValue] at kept
  exact congrArg Expr.const kept

end Runs

end Normalize

theorem integersDecided {settings : Settings} (fold : settings.constants = .fold) (m : Meaning Int) :
    (∀ {e r : Expr} {journal : Journal}, e.Integral →
      (Normalize.normalForm settings e journal).1 = .ok r → r = .const (m.value e)) ∧
    ∀ {first second : String} {a b : Expr} {verdict : Bool} {journal : Journal},
      Parse.ofSource first = .ok a → Parse.ofSource second = .ok b → a.Integral → b.Integral →
        (equivalent settings first second journal).1 = .ok verdict →
          (verdict = true ↔ m.value a = m.value b) := by
  constructor
  · intro e r journal integral run
    rw [Normalize.normalFormGives] at run
    exact Normalize.normalizedInteger fold integral run m
  · intro first second a b verdict journal readA readB onA onB run
    obtain ⟨a', b', readA', readB', r, s, runA, runB, rfl⟩ := equivalentOk run
    obtain rfl := Except.ok.inj (readA.symm.trans readA')
    obtain rfl := Except.ok.inj (readB.symm.trans readB')
    rw [Normalize.normalizedInteger fold onA runA m, Normalize.normalizedInteger fold onB runB m,
      decide_eq_true_iff, Expr.const.injEq]

def signedProduct : Expr :=
  .bin .mul (.bin .sub (.const 2) (.const 5)) (.bin .add (.const 1) (.const 3))

def signedDifference : Expr := .bin .sub (.neg (.const 7)) (.const 5)

theorem integersDecidedSigned : ({} : Settings).constants = .fold ∧
    (signedProduct.Integral ∧ ∃ r, (Normalize.normalForm {} signedProduct {}).1 = .ok r ∧
      r = .const (Normalize.tripling.value signedProduct)) ∧
    Parse.ofSource "(2-5)*(1+3)" = .ok signedProduct ∧
    Parse.ofSource "-7-5" = .ok signedDifference ∧ signedDifference.Integral ∧
    ∃ verdict, (equivalent {} "(2-5)*(1+3)" "-7-5" {}).1 = .ok verdict ∧
      (verdict = true ↔ Normalize.tripling.value signedProduct = Normalize.tripling.value signedDifference) := by
  have product : signedProduct.Integral :=
    .bin (by decide) (.bin (by decide) (.const 2) (.const 5)) (.bin (by decide) (.const 1) (.const 3))
  have difference : signedDifference.Integral :=
    .bin (by decide) (.neg (.const 7)) (.const 5)
  have run : (Normalize.normalForm {} signedProduct {}).1 = .ok (.const (-12)) := by
    rw [Node.digestEq]
    decide +kernel
  have readFirst : Parse.ofSource "(2-5)*(1+3)" = .ok signedProduct := by
    decide +kernel
  have readSecond : Parse.ofSource "-7-5" = .ok signedDifference := by
    decide +kernel
  have verdict : (equivalent {} "(2-5)*(1+3)" "-7-5" {}).1 = .ok true := by
    rw [Node.digestEq]
    decide +kernel
  have decided := @integersDecided {} rfl Normalize.tripling
  exact ⟨rfl, ⟨product, _, run, decided.1 product run⟩, readFirst, readSecond, difference, true,
    verdict, decided.2 readFirst readSecond product difference verdict⟩

end ArithEquiv
