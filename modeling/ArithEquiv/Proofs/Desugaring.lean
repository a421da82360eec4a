import ArithEquiv.Proofs.Vocabulary

/-! What a tree means once it is prepared for distribution: a negation is a product with minus one, a
difference a sum with such a product, and where constants are written out a constant is a sum of
ones. Preparing therefore keeps apart only what differs in more than order and grouping. -/
namespace ArithEquiv

namespace Interpretation

open Normalize

variable {A : Type u} (i : Interpretation A)

def desugared : Interpretation A where
  const := i.const
  var := i.var
  neg x := i.bin .mul (i.const (-1)) x
  bin
    | .add => i.bin .add
    | .sub => fun x y => i.bin .add x (i.bin .mul (i.const (-1)) y)
    | .mul => i.bin .mul
    | .div => i.bin .div
  assoc
    | .add => i.assoc .add
    | .mul => i.assoc .mul

theorem chainDesugared (op : AssocOp) (first : A) (rest : List A) :
    i.desugared.chain op first rest = i.chain op first rest := by
  cases op <;> rfl

def writingOut : Interpretation A where
  const n := (if n < 0 then Expr.neg (ones n.natAbs) else ones n.natAbs).value i
  var := i.var
  neg := i.neg
  bin := i.bin
  assoc := i.assoc

def preparing (settings : Settings) : Interpretation A :=
  match settings.constants with
  | .fold => i.desugared
  | .expand => i.desugared.writingOut

theorem preparingFold {settings : Settings} (fold : settings.constants = .fold) :
    i.preparing settings = i.desugared := by
  rw [preparing, fold]

theorem preparingCommutes {i : Interpretation A} (commutes : i.Commutative) (settings : Settings) :
    (i.preparing settings).Commutative := by
  unfold preparing
  intro op x y
  have same := commutes op x y
  cases settings.constants <;> cases op <;> exact same

end Interpretation

namespace Normalize

open ArithEquiv.Expr

section Preparing

variable {A : Type u} (i : Interpretation A) {settings : Settings} {e r : Expr}

theorem desugaredWritten {v : Vocabulary} (noNeg : ¬v.neg) (noSub : ¬v.sub)
    (written : WrittenIn v e) : e.value i.desugared = e.value i := by
  induction e using Expr.byArgs with
  | const n => rfl
  | var name => rfl
  | neg arg _ => exact absurd written.1 noNeg
  | bin op left right ihl ihr =>
    cases op with
    | add => rw [valueBin, valueBin, ihl written.1, ihr written.2]; rfl
    | mul => rw [valueBin, valueBin, ihl written.1, ihr written.2]; rfl
    | sub => exact absurd written.1 noSub
    | div => rw [valueBin, valueBin, ihl written.2.1, ihr written.2.2]; rfl
  | flat op first second rest ih =>
    have each := writtenFlat.1 written
    have same : (second :: rest).map (value i.desugared) = (second :: rest).map (value i) :=
      List.map_congr_left fun e mem =>
        ih e (List.mem_cons_of_mem _ mem) (each e (List.mem_cons_of_mem _ mem))
    rw [valueFlat, valueFlat, i.chainDesugared, same, ih first (by simp) (each first (by simp))]

theorem subToAddValueIn (sub : ∀ x y, i.bin .sub x y = i.bin .add x (i.neg y)) (e : Expr) :
    (subToAdd e).value i = e.value i := by
  refine (i.compatibleEq.bottomUp (fun t => ?_) e).symm
  unfold subToAddNode
  split
  · exact sub _ _
  · rfl

theorem negToMulDesugared (e : Expr) : (negToMul e).value i.desugared = e.value i.desugared := by
  refine (i.desugared.compatibleEq.bottomUp (fun t => ?_) e).symm
  unfold negToMulNode
  split <;> rfl

theorem constToOnesValueIn (run : constToOnes settings e = .ok r) :
    r.value i = e.value i.writingOut := by
  refine bottomUpInduction (P := fun e r => r.value i = e.value i.writingOut) ?_ ?_ ?_ ?_ ?_ run
  · intro n r last
    rcases constToOnesNodeOk last with ⟨m, same, rfl⟩ | ⟨other, _⟩
    · cases same
      rfl
    · cases other
  · intro name r last
    rw [constToOnesNodeOther rfl last]
    rfl
  · intro arg a r worked last
    rw [constToOnesNodeOther rfl last, valueNeg, worked]
    rfl
  · intro op left right l r' r onLeft onRight last
    rw [constToOnesNodeOther rfl last, valueBin, onLeft, onRight]
    rfl
  · intro op first second rest a b more r worked last
    rw [constToOnesNodeOther rfl last]
    refine WithOne.coe_injective ?_
    rw [totalFlat, totalFlat]
    have values : (a :: b :: more).map (value i) =
        (first :: second :: rest).map (value i.writingOut) := by
      refine List.forall₂_eq_eq_eq ▸ ?_
      exact List.forall₂_map_left_iff.2 (List.forall₂_map_right_iff.2 worked.flip)
    rw [values]
    rfl

theorem preparedMeans (run : prepared settings e = .ok r) :
    r.value i = e.value (i.preparing settings) := by
  have known := preparedWritten (writtenAny e) run
  have desugars : ∀ x y, i.desugared.bin .sub x y = i.desugared.bin .add x (i.desugared.neg y) :=
    fun _ _ => rfl
  unfold prepared at run
  unfold Interpretation.preparing
  rw [← desugaredWritten i id id known]
  cases strategy : settings.constants with
  | fold =>
    rw [strategy] at run
    cases run
    rw [negToMulDesugared, subToAddValueIn i.desugared desugars]
  | expand =>
    rw [strategy] at run
    obtain ⟨ones, expanded, last⟩ := bindOk.1 run
    cases last
    rw [negToMulDesugared, constToOnesValueIn i.desugared expanded,
      subToAddValueIn i.desugared.writingOut desugars]

end Preparing

theorem preparedRearranged {settings : Settings} {a b r s : Expr} (same : Rearranged a b)
    (runA : prepared settings a = .ok r) (runB : prepared settings b = .ok s) : Rearranged r s := by
  intro A i commutes
  rw [preparedMeans i runA, preparedMeans i runB]
  exact same A _ (i.preparingCommutes commutes settings)

end Normalize

end ArithEquiv
