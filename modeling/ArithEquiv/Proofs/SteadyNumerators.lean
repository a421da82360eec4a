import ArithEquiv.Proofs.Undisturbed

/-! A normal form whose constants are written out, on its way through a second run. Writing out one
gives a sum of zero and one, which a factor minus one and nothing else meets there, so distribution
keeps the formal value of a tree unless a numerator is such a sum. -/
namespace ArithEquiv

open Normalize

structure Steady where
  term : Prop
  ready : Prop
  value : Formal

namespace Steady

noncomputable def combine : BinOp → Steady → Steady → Steady
  | .add, x, y => ⟨False, x.ready ∧ y.ready, x.value + y.value⟩
  | .sub, x, y => ⟨False, x.ready ∧ y.ready, x.value + Formal.arithmetic.const (-1) * y.value⟩
  | .mul, x, y => ⟨x.term ∧ y.term, x.ready ∧ y.ready, x.value * y.value⟩
  | .div, x, y => ⟨True, (x.ready ∧ y.ready) ∧ x.term, Formal.arithmetic.divide x.value y.value⟩

noncomputable def interpretation : Interpretation Steady where
  const n := ⟨True, True, Formal.arithmetic.const n⟩
  var name := ⟨True, True, Formal.arithmetic.var name⟩
  neg x := ⟨x.term, x.ready, Formal.arithmetic.const (-1) * x.value⟩
  bin := combine
  assoc op x y z := by
    cases op with
    | add => simp [AssocOp.bin, combine, and_assoc, add_assoc]
    | mul => simp [AssocOp.bin, combine, and_assoc, mul_assoc]

theorem commutative : interpretation.Commutative := by
  intro op x y
  cases op with
  | add => simp [AssocOp.bin, interpretation, combine, and_comm, add_comm]
  | mul => simp [AssocOp.bin, interpretation, combine, and_comm, mul_comm]

theorem valueFormal (e : Expr) : (e.value interpretation).value = formal e := by
  refine Expr.valueMap interpretation Formal.arithmetic.interpretation (f := Steady.value)
    (fun _ => rfl) (fun _ => rfl) (fun _ => rfl) (fun op _ _ => ?_) e
  cases op <;> rfl

theorem mulLinear (k : Steady) (e : Expr) :
    (Summands.ofExpr e).Linear interpretation fun x => interpretation.bin .mul k x := by
  cases split : Summands.ofExpr e with
  | single term => trivial
  | chain op first rest =>
    intro x y
    rcases ofExprOp split with rfl | rfl
    · simp only [interpretation, combine, mul_add, and_false, mk.injEq, eq_iff_iff, true_and,
        and_true]
      tauto
    · simp only [interpretation, combine, mul_add, mul_left_comm, and_false, mk.injEq, eq_iff_iff,
        true_and, and_true]
      tauto

theorem linearMul (k : Steady) (e : Expr) :
    (Summands.ofExpr e).Linear interpretation fun x => interpretation.bin .mul x k := by
  have turned : (fun x => interpretation.bin .mul x k) = fun x => interpretation.bin .mul k x :=
    funext fun x => commutative .mul x k
  rw [turned]
  exact mulLinear k e

def Kept (x y : Steady) : Prop := x.ready → y = x

theorem kept : interpretation.Compatible Kept where
  refl _ _ := rfl
  trans {x y z} h g ready := by
    have first := h ready
    rw [← first] at ready
    exact (g ready).trans first
  neg h ready := by rw [h ready]
  bin op a b c d h g ready := by
    have parts : a.ready ∧ c.ready := by
      cases op with
      | div => exact ready.1
      | _ => exact ready
    rw [h parts.1, g parts.2]

end Steady

namespace Normalize

open ArithEquiv.Expr Formal

theorem manyNoTerm {e : Expr} (many : (Summands.ofExpr e).isSingle = false) :
    ¬(e.value Steady.interpretation).term := by
  cases e with
  | bin op _ _ =>
    cases op with
    | add => exact id
    | sub => exact id
    | _ => cases many
  | _ => cases many

section Distribution

variable {settings : Settings} {e r : Expr}

theorem distributeNodeSteady (run : distributeNode settings e = .ok r) :
    Steady.Kept (e.value Steady.interpretation) (r.value Steady.interpretation) := by
  intro ready
  refine (distributeNodeKept run Steady.mulLinear Steady.linearMul ?_).symm
  rintro n d rfl many _
  exact absurd ready.2 (manyNoTerm many)

end Distribution

inductive NoUnitNumerators : Expr → Prop where
  | const (n : Int) : NoUnitNumerators (.const n)
  | var (name : String) : NoUnitNumerators (.var name)
  | neg {arg : Expr} (inner : NoUnitNumerators arg) : NoUnitNumerators (.neg arg)
  | bin {op : BinOp} {left right : Expr}
      (numerator : op = .div → left ≠ .const 1 ∧ left ≠ .const (-1))
      (onLeft : NoUnitNumerators left) (onRight : NoUnitNumerators right) :
      NoUnitNumerators (.bin op left right)
  | flat {op : AssocOp} {first second : Expr} {rest : List Expr}
      (each : ∀ e ∈ first :: second :: rest, NoUnitNumerators e) :
      NoUnitNumerators (.flat op first second rest)

section Preparing

variable {settings : Settings} {e r start : Expr}

theorem subToAddNothing {v : Vocabulary} (noSub : ¬v.sub) (written : WrittenIn v e) :
    subToAdd e = e := by
  unfold subToAdd
  induction e using Expr.byArgs with
  | const n => rw [bottomUpConst]; rfl
  | var name => rw [bottomUpVar]; rfl
  | neg arg ih => rw [bottomUpNeg, ih written.2]; rfl
  | bin op left right ihl ihr =>
    cases op with
    | add => rw [bottomUpBin, ihl written.1, ihr written.2]; rfl
    | mul => rw [bottomUpBin, ihl written.1, ihr written.2]; rfl
    | sub => exact absurd written.1 noSub
    | div => rw [bottomUpBin, ihl written.2.1, ihr written.2.2]; rfl
  | flat op first second rest ih =>
    have each := writtenFlat.1 written
    have same : rest.map (Expr.bottomUp subToAddNode) = rest := by
      refine (List.map_congr_left fun e mem => ?_).trans (List.map_id _)
      exact ih e (by simp [mem]) (each e (by simp [mem]))
    rw [bottomUpFlat, ih first (by simp) (each first (by simp)),
      ih second (by simp) (each second (by simp)), same]
    rfl

structure WrittenOut (e t : Expr) : Prop where
  ready : (t.value Steady.interpretation).ready
  term : kind e ≠ .sum → e ≠ .const 1 → e ≠ .const (-1) → (t.value Steady.interpretation).term
  value : formal t = formal e

theorem writtenOutConst {n : Int} (unit : n = 0 ∨ n = 1 ∨ n = -1)
    (run : constToOnesNode settings (.const n) = .ok r) : WrittenOut (.const n) r := by
  have one : formal (ones 1) = formal (.const 1) := by
    show Formal.arithmetic.const 0 + Formal.arithmetic.const 1 = Formal.arithmetic.const 1
    rw [constZero, zero_add]
  have ready : ((ones 1).value Steady.interpretation).ready := ⟨trivial, trivial⟩
  rcases constToOnesNodeOk run with ⟨m, same, rfl⟩ | ⟨other, _⟩
  · cases same
    rcases unit with rfl | rfl | rfl
    · exact ⟨trivial, fun _ _ _ => trivial, rfl⟩
    · exact ⟨ready, fun _ differs => absurd rfl differs, one⟩
    · refine ⟨ready, fun _ _ differs => absurd rfl differs, ?_⟩
      show Formal.arithmetic.const (-1) * formal (ones 1) = Formal.arithmetic.const (-1)
      rw [one]
      exact (map_mul Formal.arithmetic.const (-1) 1).symm
  · cases other

theorem notUnit (solid : kind e = .atom ∨ kind e = .product) :
    kind e ≠ .sum ∧ e ≠ .const 1 ∧ e ≠ .const (-1) := by
  refine ⟨fun sum => ?_, ?_, ?_⟩
  · rcases solid with h | h <;> cases h.symm.trans sum
  · rintro rfl
    rcases solid with h | h <;> cases h
  · rintro rfl
    rcases solid with h | h <;> cases h

theorem factorSolid {v : Vocabulary} (units : ∀ n, v.const n → n = 0 ∨ n = 1 ∨ n = -1)
    (written : WrittenIn v e) (factor : (outline .signed e).kind.isFactor)
    (big : ∀ n ∈ (outline .signed e).factors, 2 ≤ n) : kind e = .atom ∨ kind e = .product := by
  rw [outlineKind] at factor
  cases found : kind e with
  | constant =>
    obtain ⟨n, rfl⟩ := constantKind found
    have unit := units n written
    have atLeast := big n (Multiset.mem_singleton_self n)
    omega
  | atom => exact .inl rfl
  | product => exact .inr rfl
  | _ => rw [found] at factor; exact factor.elim

theorem onesWrittenOut {v : Vocabulary} (units : ∀ n, v.const n → n = 0 ∨ n = 1 ∨ n = -1)
    (run : constToOnes settings e = .ok r) (plain : Unflattened e)
    (sound : (outline .signed e).sound) (written : WrittenIn v e) (none : NoUnitNumerators e) :
    WrittenOut e r := by
  refine bottomUpInduction (P := fun e t => Unflattened e → (outline .signed e).sound →
    WrittenIn v e → NoUnitNumerators e → WrittenOut e t) ?_ ?_ ?_ ?_ ?_ run plain sound written none
  · intro n r last _ _ written _
    exact writtenOutConst (units n written) last
  · intro name r last _ _ _ _
    rw [constToOnesNodeOther rfl last]
    exact ⟨trivial, fun _ _ _ => trivial, rfl⟩
  · intro arg a r worked last plain sound written none
    rw [constToOnesNodeOther rfl last]
    obtain ⟨_, inner, _, solid⟩ := sound
    have same : (outline .signed arg).kind = kind arg := outlineKind arg
    rw [← outline, same] at solid
    cases plain with
    | neg plain =>
      cases none with
      | neg none =>
        obtain ⟨ready, term, value⟩ := worked plain inner written.2 none
        obtain ⟨noSum, noOne, noMinus⟩ := notUnit solid
        exact ⟨ready, fun _ _ _ => term noSum noOne noMinus,
          congrArg (Formal.arithmetic.const (-1) * ·) value⟩
  · intro op left right l r' r onLeft onRight last plain sound written none
    rw [constToOnesNodeOther rfl last]
    cases plain with
    | bin plainLeft plainRight =>
      cases none with
      | bin numerator noneLeft noneRight =>
        cases op with
        | add =>
          obtain ⟨⟨⟨soundLeft, _⟩, soundRight, _⟩, _⟩ := addSound.1 sound
          have left' := onLeft plainLeft soundLeft written.1 noneLeft
          have right' := onRight plainRight soundRight written.2 noneRight
          exact ⟨⟨left'.ready, right'.ready⟩, fun noSum => absurd rfl noSum,
            congrArg₂ (· + ·) left'.value right'.value⟩
        | sub => exact sound.elim
        | mul =>
          obtain ⟨⟨⟨soundLeft, factorLeft⟩, soundRight, factorRight⟩, _, big⟩ := mulSound.1 sound
          have left' := onLeft plainLeft soundLeft written.1 noneLeft
          have right' := onRight plainRight soundRight written.2 noneRight
          obtain ⟨noSum, noOne, noMinus⟩ := notUnit (factorSolid units written.1 factorLeft
            fun n mem => big n (Multiset.mem_add.2 (.inl mem)))
          obtain ⟨noSum', noOne', noMinus'⟩ := notUnit (factorSolid units written.2 factorRight
            fun n mem => big n (Multiset.mem_add.2 (.inr mem)))
          exact ⟨⟨left'.ready, right'.ready⟩,
            fun _ _ _ => ⟨left'.term noSum noOne noMinus, right'.term noSum' noOne' noMinus'⟩,
            congrArg₂ (· * ·) left'.value right'.value⟩
        | div =>
          obtain ⟨soundLeft, soundRight, term, _⟩ := sound
          have left' := onLeft plainLeft soundLeft written.2.1 noneLeft
          have right' := onRight plainRight soundRight written.2.2 noneRight
          -- A numerator must come out as one term, which a unit written out is not.
          obtain ⟨noOne, noMinus⟩ := numerator rfl
          have noSum : kind left ≠ .sum := fun sum => term ((outlineKind left).trans sum)
          exact ⟨⟨⟨left'.ready, right'.ready⟩, left'.term noSum noOne noMinus⟩,
            fun _ _ _ => trivial, congrArg₂ Formal.arithmetic.divide left'.value right'.value⟩
  · intro op first second rest a b more r worked last plain
    cases plain

theorem negToMulSteady (e : Expr) :
    (negToMul e).value Steady.interpretation = e.value Steady.interpretation := by
  refine (Steady.interpretation.compatibleEq.bottomUp (fun t => ?_) e).symm
  unfold negToMulNode
  split
  · simp [valueNeg, valueBin, valueConst, Steady.interpretation, Steady.combine]
  · rfl

theorem writtenOutTerms (expand : settings.constants = .expand) {terms : Expr}
    (plain : Unflattened e) (shaped : Shaped (.normal settings) (flattenOnce e))
    (written : WrittenIn { plainVocabulary settings True with neg := True } e)
    (none : NoUnitNumerators e) (prepares : prepared settings e = .ok start)
    (signs : signed settings start = .ok terms) : formal terms = formal e := by
  obtain ⟨products, multiplied, same⟩ := signedFormal signs
  have sound : (outline .signed e).sound := by
    have flat := (shapedSound (normalSigned shaped)).1
    rwa [outline, valueFlattenOnce] at flat
  unfold prepared at prepares
  rw [expand] at prepares
  obtain ⟨ones, expanded, last⟩ := bindOk.1 prepares
  cases last
  rw [subToAddNothing id written] at expanded
  have units : ∀ n, { plainVocabulary settings True with neg := True }.const n →
      n = 0 ∨ n = 1 ∨ n = -1 := fun _ known => known expand
  have out := onesWrittenOut units expanded plain sound written none
  have kept := distributedRelated Steady.kept Steady.commutative expand distributeNodeSteady multiplied
  rw [negToMulSteady] at kept
  rw [same, ← out.value, ← Steady.valueFormal, ← Steady.valueFormal, kept out.ready]

end Preparing

end Normalize

end ArithEquiv
