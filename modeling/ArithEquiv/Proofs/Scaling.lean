import ArithEquiv.Proofs.Integers

/-! Multiplying out around a tree. A factor in front of a sum, or behind it, goes to each of its
terms, so one round leaves a zero, a one or a pair of negations around a tree at every term of it.
Whatever those mean to a term they mean to the whole. -/
namespace ArithEquiv

inductive Neutral (e : Expr) : Expr → Prop where
  | same : Neutral e e
  | timesOne : Neutral e (.bin .mul e (.const 1))
  | oneTimes : Neutral e (.bin .mul (.const 1) e)
  | plusZero : Neutral e (.bin .add e (.const 0))
  | zeroPlus : Neutral e (.bin .add (.const 0) e)
  | minusZero : Neutral e (.bin .sub e (.const 0))
  | negatedTwice : Neutral e (.neg (.neg e))

inductive Opposed (e : Expr) : Expr → Prop where
  | negation : Opposed e (.neg e)
  | zeroMinus : Opposed e (.bin .sub (.const 0) e)

inductive Annihilated (e : Expr) : Expr → Prop where
  | timesZero : Annihilated e (.bin .mul e (.const 0))
  | zeroTimes : Annihilated e (.bin .mul (.const 0) e)

namespace Normalize

open ArithEquiv.Expr Interpretation

section Scaling

variable {settings : Settings} {k : Int} {c d : Expr}

def scaled (k : Int) (e : Expr) : Expr := ((Summands.ofExpr e).map (.bin .mul (.const k))).join

theorem ofExprSingle {e : Expr} (single : (Summands.ofExpr e).isSingle = true) :
    Summands.ofExpr e = .single e := by
  have whole := Summands.joinOfExpr e
  cases split : Summands.ofExpr e with
  | single term =>
    rw [split] at whole
    exact congrArg Summands.single whole
  | chain op first rest =>
    rw [split] at single
    cases single

theorem scaleLeft (run : distributeNode settings (.bin .mul (.const k) d) = .ok c) :
    c = scaled k d := by
  unfold distributeNode at run
  dsimp only at run
  split at run
  · rename_i both
    cases run
    rw [scaled, ofExprSingle (Bool.and_eq_true_iff.1 both).2]
    rfl
  · exact multiplyOutOk run

theorem scaleRight (run : distributeNode settings (.bin .mul d (.const k)) = .ok c) :
    c = ((Summands.ofExpr d).map fun t => .bin .mul t (.const k)).join := by
  unfold distributeNode at run
  dsimp only at run
  split at run
  · rename_i both
    cases run
    rw [ofExprSingle (Bool.and_eq_true_iff.1 both).1]
    rfl
  · exact multiplyOutOk run

theorem spineChain (op : BinOp) (first : Expr) (rest after : List Expr) :
    Summands.spine op (leftChain op first rest) after =
      Summands.spine op first (rest ++ after) := by
  induction rest generalizing first with
  | nil => rfl
  | cons next rest ih =>
    refine (ih (.bin op first next)).trans ?_
    rw [Summands.spine, if_pos rfl]
    rfl

theorem ofExprSum {op : BinOp} (sum : op = .add ∨ op = .sub) (left right : Expr) :
    Summands.ofExpr (.bin op left right) =
      .chain op (Summands.spine op left [right]).1 (Summands.spine op left [right]).2 := by
  rcases sum with rfl | rfl <;> rfl

theorem ofExprScaled (k : Int) (e : Expr) :
    Summands.ofExpr (scaled k e) = (Summands.ofExpr e).map (.bin .mul (.const k)) := by
  unfold scaled
  cases split : Summands.ofExpr e with
  | single term => rfl
  | chain op first rest =>
    obtain ⟨sum, several⟩ : (Summands.chain op first rest).Proper := split ▸ ofExprProper e
    have stops : ∀ after, Summands.spine op (.bin .mul (.const k) first) after =
        (.bin .mul (.const k) first, after) := by
      intro after
      rw [Summands.spine, if_neg]
      rcases sum with rfl | rfl <;> decide
    rcases List.eq_nil_or_concat' rest with rfl | ⟨front, last, rfl⟩
    · exact absurd rfl several
    · show Summands.ofExpr (leftChain op _ ((front ++ [last]).map _)) = _
      rw [List.map_append, List.map_singleton, chainSnoc, ofExprSum sum, spineChain, stops,
        ← List.map_singleton, ← List.map_append]
      rfl

section Values

variable {A : Type u} {i : Interpretation A} {f : Expr → Expr}

theorem mappedTerms {F : A → A} {e : Expr} (linear : (Summands.ofExpr e).Linear i F)
    (each : ∀ t, (f t).value i = F (t.value i)) :
    ((Summands.ofExpr e).map f).join.value i = F (e.value i) := by
  rw [summandsMap linear each, Summands.joinOfExpr]

theorem unitTerms (each : ∀ t, (f t).value i = t.value i) (e : Expr) :
    ((Summands.ofExpr e).map f).join.value i = e.value i := by
  refine mappedTerms (F := id) ?_ each
  cases Summands.ofExpr e with
  | single term => trivial
  | chain op first rest => exact fun _ _ => rfl

theorem zeroTerms (laws : i.SignLaws) (each : ∀ t, (f t).value i = i.const 0) (e : Expr) :
    ((Summands.ofExpr e).map f).join.value i = i.const 0 := by
  refine mappedTerms (F := fun _ => i.const 0) ?_ each
  cases split : Summands.ofExpr e with
  | single term => trivial
  | chain op first rest =>
    rcases ofExprOp split with rfl | rfl
    · exact fun _ _ => (laws.zeroAdd _).symm
    · exact fun _ _ => (laws.subZero _).symm

theorem scaledTwice (laws : i.SignLaws) (e : Expr) :
    (scaled (-1) (scaled (-1) e)).value i = e.value i := by
  have both : scaled (-1) (scaled (-1) e) = ((Summands.ofExpr e).map fun t =>
      .bin .mul (.const (-1)) (.bin .mul (.const (-1)) t)).join := by
    rw [scaled, ofExprScaled]
    cases Summands.ofExpr e with
    | single term => rfl
    | chain op first rest =>
      exact congrArg (leftChain op _) List.map_map
  rw [both]
  refine unitTerms (fun t => ?_) e
  calc i.bin .mul (i.const (-1)) (i.bin .mul (i.const (-1)) (t.value i))
      = i.bin .mul (i.bin .mul (i.const (-1)) (i.const (-1))) (t.value i) :=
        (i.assoc .mul _ _ _).symm
    _ = i.bin .mul (i.const 1) (t.value i) := congrArg (fun x => i.bin .mul x _) (laws.magnitude 1)
    _ = t.value i := laws.oneMul _

end Values

end Scaling

section Multiplying

variable {settings : Settings} {e a c : Expr}

def crossed (settings : Settings) (e : Expr) : Except Fault Expr :=
  (unflattenOnce (negToMul (subToAdd e))).bottomUpM (distributeNode settings)

theorem crossedConst (n : Int) : crossed settings (.const n) = .ok (.const n) := by
  unfold crossed subToAdd negToMul
  rw [bottomUpConst, subToAddNode, bottomUpConst, negToMulNode, unflattenConst, bottomUpMConst]
  · rfl
  · intro _ same; cases same
  · intro _ _ same; cases same

theorem crossedBin {op : BinOp} (other : op ≠ .sub) (left right : Expr) :
    crossed settings (.bin op left right) = (do
      let l ← crossed settings left
      let r ← crossed settings right
      distributeNode settings (.bin op l r)) := by
  have sums : subToAdd (.bin op left right) = .bin op (subToAdd left) (subToAdd right) := by
    unfold subToAdd
    rw [bottomUpBin]
    cases op with
    | sub => exact absurd rfl other
    | _ => rfl
  have products : negToMul (.bin op (subToAdd left) (subToAdd right)) =
      .bin op (negToMul (subToAdd left)) (negToMul (subToAdd right)) := bottomUpBin ..
  unfold crossed
  rw [sums, products, unflattenBin, bottomUpMBin]

theorem crossedNeg (arg : Expr) :
    crossed settings (.neg arg) = crossed settings (.bin .mul (.const (-1)) arg) := by
  have same :
      negToMul (subToAdd (.neg arg)) = negToMul (subToAdd (.bin .mul (.const (-1)) arg)) := by
    unfold subToAdd negToMul
    rw [bottomUpNeg, bottomUpBin, bottomUpConst]
    show (Expr.neg _).bottomUp negToMulNode =
      (Expr.bin .mul (.const (-1)) _).bottomUp negToMulNode
    rw [bottomUpNeg, bottomUpBin, bottomUpConst]
    rfl
  rw [crossed, same, crossed]

theorem crossedSub (left right : Expr) :
    crossed settings (.bin .sub left right) = crossed settings (.bin .add left (.neg right)) := by
  have same : subToAdd (.bin .sub left right) = subToAdd (.bin .add left (.neg right)) := by
    unfold subToAdd
    rw [bottomUpBin, bottomUpBin, bottomUpNeg]
    rfl
  rw [crossed, same, crossed]

theorem crossedScaled {k : Int} (run : crossed settings (.bin .mul (.const k) e) = .ok c) :
    ∃ d, crossed settings e = .ok d ∧ c = scaled k d := by
  rw [crossedBin (by decide), crossedConst] at run
  obtain ⟨_, ⟨⟩, run⟩ := bindOk.1 run
  obtain ⟨d, inner, last⟩ := bindOk.1 run
  exact ⟨d, inner, scaleLeft last⟩

theorem crossedBehind {k : Int} (run : crossed settings (.bin .mul e (.const k)) = .ok c) :
    ∃ d, crossed settings e = .ok d ∧
      c = ((Summands.ofExpr d).map fun t => .bin .mul t (.const k)).join := by
  rw [crossedBin (by decide), crossedConst] at run
  obtain ⟨d, inner, last⟩ := bindOk.1 run
  exact ⟨d, inner, scaleRight last⟩

theorem crossedAdd {left right : Expr}
    (run : crossed settings (.bin .add left right) = .ok c) :
    ∃ l r, crossed settings left = .ok l ∧ crossed settings right = .ok r ∧ c = .bin .add l r := by
  rw [crossedBin (by decide)] at run
  obtain ⟨l, onLeft, run⟩ := bindOk.1 run
  obtain ⟨r, onRight, last⟩ := bindOk.1 run
  exact ⟨l, r, onLeft, onRight, (Except.ok.inj last).symm⟩

variable {A : Type u} {i : Interpretation A}

theorem neutralCrossed (laws : i.SignLaws) (neutral : Neutral e a)
    (run : crossed settings a = .ok c) :
    ∃ d, crossed settings e = .ok d ∧ c.value i = d.value i := by
  cases neutral with
  | same => exact ⟨c, run, rfl⟩
  | timesOne =>
    obtain ⟨d, inner, rfl⟩ := crossedBehind run
    refine ⟨d, inner, unitTerms (f := fun t => .bin .mul t (.const 1)) (fun t => ?_) d⟩
    exact laws.mulOne (t.value i)
  | oneTimes =>
    obtain ⟨d, inner, rfl⟩ := crossedScaled run
    refine ⟨d, inner, unitTerms (f := .bin .mul (.const 1)) (fun t => ?_) d⟩
    exact laws.oneMul (t.value i)
  | plusZero =>
    obtain ⟨d, zero, inner, none, rfl⟩ := crossedAdd run
    cases (crossedConst 0).symm.trans none
    exact ⟨d, inner, laws.addZero _⟩
  | zeroPlus =>
    obtain ⟨zero, d, none, inner, rfl⟩ := crossedAdd run
    cases (crossedConst 0).symm.trans none
    exact ⟨d, inner, laws.zeroAdd _⟩
  | minusZero =>
    rw [crossedSub] at run
    obtain ⟨d, product, inner, negates, rfl⟩ := crossedAdd run
    rw [crossedNeg] at negates
    obtain ⟨zero, none, rfl⟩ := crossedScaled negates
    cases (crossedConst 0).symm.trans none
    refine ⟨d, inner, Eq.trans (congrArg (i.bin .add _) ?_) (laws.addZero _)⟩
    exact laws.mulZero _
  | negatedTwice =>
    rw [crossedNeg] at run
    obtain ⟨once, negates, rfl⟩ := crossedScaled run
    rw [crossedNeg] at negates
    obtain ⟨d, inner, rfl⟩ := crossedScaled negates
    exact ⟨d, inner, scaledTwice laws d⟩

theorem opposedCrossed (laws : i.SignLaws) (opposed : Opposed e a)
    (run : crossed settings a = .ok c) :
    ∃ d, crossed settings e = .ok d ∧ c.value i = (scaled (-1) d).value i := by
  cases opposed with
  | negation =>
    rw [crossedNeg] at run
    obtain ⟨d, inner, rfl⟩ := crossedScaled run
    exact ⟨d, inner, rfl⟩
  | zeroMinus =>
    rw [crossedSub] at run
    obtain ⟨zero, product, none, negates, rfl⟩ := crossedAdd run
    cases (crossedConst 0).symm.trans none
    rw [crossedNeg] at negates
    obtain ⟨d, inner, rfl⟩ := crossedScaled negates
    exact ⟨d, inner, laws.zeroAdd _⟩

theorem annihilatedCrossed (laws : i.SignLaws) (annihilated : Annihilated e a)
    (run : crossed settings a = .ok c) : c.value i = i.const 0 := by
  cases annihilated with
  | timesZero =>
    obtain ⟨d, _, rfl⟩ := crossedBehind run
    refine zeroTerms laws (f := fun t => .bin .mul t (.const 0)) (fun t => ?_) d
    exact laws.mulZero (t.value i)
  | zeroTimes =>
    obtain ⟨d, _, rfl⟩ := crossedScaled run
    refine zeroTerms laws (f := .bin .mul (.const 0)) (fun t => ?_) d
    exact laws.zeroMul (t.value i)

end Multiplying

end Normalize

end ArithEquiv
