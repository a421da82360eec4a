import ArithEquiv.Proofs.Grouping
import ArithEquiv.Proofs.Rearrangement

/-! The limit on nodes holds for what a run returns. A loop checks every tree that differs from the one
before it, so its result is the tree it began with or has been checked. Preparing checks nothing, and
neither does the sweep that reduces signs; but where all later loops leave a tree as it is, it has no
sums and no products, and such a tree neither of them would have made. -/
namespace ArithEquiv.Normalize

open ArithEquiv.Expr

def Limited (settings : Settings) (e r : Expr) : Prop := r = e ∨ (r.size : Int) ≤ settings.maxNodes

theorem Limited.trans {settings : Settings} {a b c : Expr} (first : Limited settings a b)
    (second : Limited settings b c) : Limited settings a c := by
  rcases second with rfl | small
  · exact first
  · exact .inr small

section Loop

variable {settings : Settings} {pass : String} {step : Expr → Except Fault Expr}

theorem checkedSize {e : Expr} (checked : checkSize settings pass e = .ok ()) :
    (e.size : Int) ≤ settings.maxNodes := by
  unfold checkSize at checked
  split at checked
  · cases checked
  · rename_i small
    exact Int.not_lt.1 small

theorem settleLimited {more : Nat} {previous current r : Expr}
    (run : settle settings pass step more previous current = .ok r) : Limited settings previous r := by
  induction more generalizing previous current with
  | zero =>
    rcases settleOk run with ⟨same, rfl⟩ | ⟨_, _, _, impossible, _⟩
    · exact .inl same.symm
    · cases impossible
  | succ more ih =>
    unfold settle at run
    split at run
    · rename_i same
      cases run
      exact .inl same.symm
    · cases size : checkSize settings pass current with
      | error fault => simp only [size] at run; cases run
      | ok _ =>
        simp only [size] at run
        obtain ⟨next, _, run⟩ := bindOk.1 run
        have checked : Limited settings previous current := .inr (checkedSize size)
        exact checked.trans (ih run)

theorem fixedPointLimited {e r : Expr} (run : toFixedPoint settings pass step e = .ok r) :
    Limited settings e r := by
  obtain ⟨first, _, run⟩ := bindOk.1 run
  exact settleLimited run

end Loop

inductive Bare : Expr → Prop where
  | const (n : Int) : Bare (.const n)
  | var (name : String) : Bare (.var name)
  | bin {op : BinOp} {left right : Expr} (other : op.assoc? = none) (onLeft : Bare left)
      (onRight : Bare right) : Bare (.bin op left right)

section Preparing

variable {e r : Expr}

theorem bareNegToMul (flattened : Flattened (negToMul e)) (plain : Unflattened (negToMul e)) :
    Bare e ∧ negToMul e = e := by
  unfold negToMul at *
  induction e with
  | const n => exact ⟨.const n, bottomUpConst _ n⟩
  | var name => exact ⟨.var name, bottomUpVar _ name⟩
  | neg arg _ =>
    rw [bottomUpNeg] at flattened
    cases flattened with
    | bin other _ _ => cases other
  | bin op left right ihl ihr =>
    rw [bottomUpBin] at flattened plain ⊢
    cases flattened with
    | bin other flatLeft flatRight =>
      cases plain with
      | bin plainLeft plainRight =>
        obtain ⟨bareLeft, sameLeft⟩ := ihl flatLeft plainLeft
        obtain ⟨bareRight, sameRight⟩ := ihr flatRight plainRight
        rw [sameLeft, sameRight]
        exact ⟨.bin other bareLeft bareRight, rfl⟩
  | flat op first second rest _ _ _ =>
    rw [bottomUpFlat] at plain
    cases plain

theorem bareSubToAdd (bare : Bare (subToAdd e)) : subToAdd e = e := by
  unfold subToAdd at *
  induction e with
  | const n => exact bottomUpConst _ n
  | var name => exact bottomUpVar _ name
  | neg arg _ =>
    rw [bottomUpNeg] at bare
    cases bare
  | bin op left right ihl ihr =>
    rw [bottomUpBin] at bare ⊢
    cases op with
    | sub =>
      cases bare with
      | bin other _ _ => cases other
    | add | mul | div =>
      cases bare with
      | bin _ onLeft onRight => rw [ihl onLeft, ihr onRight, subToAddNode]; simp
  | flat op first second rest _ _ _ =>
    rw [bottomUpFlat] at bare
    cases bare

theorem bareConstToOnes {settings : Settings} (run : constToOnes settings e = .ok r) (bare : Bare r) :
    r = e := by
  refine bottomUpInduction (P := fun e r => Bare r → r = e) ?_ ?_ ?_ ?_ ?_ run bare
  · intro n r last bare
    simp only [constToOnesNode] at last
    split_ifs at last with large negative
    · cases last
      cases bare
    · cases last
      match magnitude : n.natAbs with
      | 0 =>
        rw [Int.natAbs_eq_zero.1 magnitude]
        rfl
      | k + 1 =>
        rw [magnitude] at bare
        cases bare with
        | bin other _ _ => cases other
  · intro name r last _
    cases last
    rfl
  · intro arg a r _ last bare
    cases last
    cases bare
  · intro op left right l r' r onLeft onRight last bare
    cases last
    cases bare with
    | bin _ bareLeft bareRight => rw [onLeft bareLeft, onRight bareRight]
  · intro op first second rest a b more r _ last bare
    cases last
    cases bare

theorem preparedSame {settings : Settings} (run : prepared settings e = .ok r)
    (flattened : Flattened r) (plain : Unflattened r) : r = e := by
  unfold prepared at run
  split at run
  · cases run
    obtain ⟨bare, same⟩ := bareNegToMul flattened plain
    rw [same]
    exact bareSubToAdd bare
  · obtain ⟨ones, writes, last⟩ := bindOk.1 run
    cases last
    obtain ⟨bare, same⟩ := bareNegToMul flattened plain
    obtain rfl := bareConstToOnes writes bare
    rw [same]
    exact bareSubToAdd bare

end Preparing

/- A sweep that reduces signs leaves calls flat, so where it leaves none there were none. -/
theorem signParitySame {e : Expr} (plain : Unflattened (e.bottomUp signParityNode)) :
    e.bottomUp signParityNode = e := by
  induction e with
  | const n => exact bottomUpConst _ n
  | var name => exact bottomUpVar _ name
  | neg arg ih =>
    rw [bottomUpNeg] at plain ⊢
    cases plain with
    | neg inner => rw [ih inner]; rfl
  | bin op left right ihl ihr =>
    rw [bottomUpBin] at plain ⊢
    cases plain with
    | bin onLeft onRight => rw [ihl onLeft, ihr onRight]; rfl
  | flat op first second rest _ _ _ =>
    rw [bottomUpFlat] at plain
    unfold signParityNode at plain
    split at plain
    · dsimp only at plain
      split at plain <;> cases plain
    · cases plain

section Passes

variable {settings : Settings} {e r : Expr}

/- Flattening is followed by unflattening, so a tree that neither changes has nothing for them. -/
theorem restructuredLimited (run : restructured settings e = .ok r) :
    (r.size : Int) ≤ settings.maxNodes ∨ r = e ∧ Flattened r ∧ Unflattened r := by
  obtain ⟨flat, flattens, run⟩ := bindOk.1 run
  obtain ⟨combined, folds, run⟩ := bindOk.1 run
  obtain ⟨o, orders, last⟩ := bindOk.1 run
  have combines : Limited settings flat combined := by
    unfold folded at folds
    split at folds
    · exact fixedPointLimited folds
    · cases folds
      exact .inl rfl
  have flattened : Flattened flat := by
    rw [flattenRun flattens]
    exact flattenOnceFlattened e
  have plain : Unflattened r := by
    rw [unflattenRun last]
    exact unflattenOnceUnflattened o
  rcases (combines.trans (fixedPointLimited orders)).trans (fixedPointLimited last) with rfl | small
  · rcases fixedPointLimited flattens with same | small
    · exact .inr ⟨same, flattened, plain⟩
    · exact .inl small
  · exact .inl small

theorem cleanSignsLimited (run : cleanSigns settings e = .ok r) : Limited settings e r := by
  obtain ⟨flat, flattens, run⟩ := bindOk.1 run
  obtain ⟨ordered, orders, last⟩ := bindOk.1 run
  have before : Limited settings e ordered :=
    Limited.trans (fixedPointLimited flattens) (fixedPointLimited orders)
  rcases fixedPointLimited last with same | small
  · have plain := unflattenOnceUnflattened (ordered.bottomUp signParityNode)
    rw [← unflattenRun last, same] at plain
    rw [same, signParitySame plain]
    exact before
  · exact .inr small

theorem takeSignsLimited (run : takeSigns settings e = .ok r) : Limited settings e r := by
  obtain ⟨flat, flattens, last⟩ := bindOk.1 run
  exact Limited.trans (fixedPointLimited flattens) (fixedPointLimited last)

theorem cancelOppositesLimited (run : cancelOpposites settings e = .ok r) : Limited settings e r := by
  obtain ⟨flat, flattens, last⟩ := bindOk.1 run
  exact Limited.trans (fixedPointLimited flattens) (fixedPointLimited last)

theorem signedLimited (run : signed settings e = .ok r) : Limited settings e r := by
  obtain ⟨products, distributes, run⟩ := bindOk.1 run
  obtain ⟨signs, reduces, run⟩ := bindOk.1 run
  obtain ⟨units, cleans, takes⟩ := bindOk.1 run
  have multiplied : Limited settings e products := fixedPointLimited distributes
  exact ((multiplied.trans (cleanSignsLimited reduces)).trans (fixedPointLimited cleans)).trans
    (takeSignsLimited takes)

theorem normalizedLimited (run : normalized settings e = .ok r) : Limited settings e r := by
  obtain ⟨start, prepares, run⟩ := bindOk.1 run
  obtain ⟨terms, signs, run⟩ := bindOk.1 run
  obtain ⟨left, cancels, last⟩ := bindOk.1 run
  have before : Limited settings start left :=
    (signedLimited signs).trans (cancelOppositesLimited cancels)
  rcases restructuredLimited last with small | ⟨same, flattened, plain⟩
  · exact .inr small
  · rcases before with rfl | small
    · subst same
      exact .inl (preparedSame prepares flattened plain)
    · exact .inr (by rwa [same])

end Passes

theorem normalFormLimited {settings : Settings} {e r : Expr} {journal : Journal}
    (run : (normalForm settings e journal).1 = .ok r) :
    r = e ∨ (r.size : Int) ≤ settings.maxNodes := by
  rw [normalFormGives settings e journal] at run
  exact normalizedLimited run

def tight : Settings := { maxNodes := 7 }

def difference : Expr := .bin .sub (.var "x") (.var "y")

theorem normalFormLimitedTight : ∃ r, (normalForm tight difference {}).1 = .ok r ∧
    (r = difference ∨ (r.size : Int) ≤ tight.maxNodes) := by
  have run : (normalForm tight difference {}).1 =
      .ok (.bin .add (.var "x") (.neg (.var "y"))) := by
    rw [tight, Node.digestEq]
    decide +kernel
  exact ⟨_, run, normalFormLimited run⟩

/-- A tree with neither sums nor products may exceed the limit, for no pass changes it. -/
example : (normalForm { maxNodes := 1 } (.bin .div (.var "x") (.var "y")) {}).1 =
    .ok (.bin .div (.var "x") (.var "y")) := by
  decide +kernel

end ArithEquiv.Normalize
