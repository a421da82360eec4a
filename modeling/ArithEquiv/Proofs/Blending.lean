import ArithEquiv.Proofs.Desugaring
import ArithEquiv.Proofs.Stages

/-! Combining constants as a meaning of trees. What is left of a flattened tree can be said bottom
up, two operands at a time: the constants of both together in front of the other operands of both.
Sums and products of such trees are associative, and zero, one and minus one act as they should, so
it is of no account where in a tree a unit stood before its constants were combined. -/
namespace ArithEquiv.Normalize

open ArithEquiv.Expr Interpretation

section Operands

variable {op : AssocOp} {n : Int} {e : Expr} {es xs ys zs : List Expr}

def fronted (op : AssocOp) (n : Int) (es : List Expr) : Expr :=
  if op = .mul ∧ n = 0 then .const 0
  else if n = op.identity then .join op es
  else .join op (.const n :: es)

def blend (op : AssocOp) (es : List Expr) : Expr :=
  fronted op (op.total (numbers (drawnIn op es))) (others (drawnIn op es))

theorem FoldsTo.blends {r : Expr} (folds : FoldsTo op (drawnIn op es) r) : r = blend op es := by
  unfold blend fronted
  cases folds with
  | zero product none => rw [if_pos ⟨product, none⟩]
  | identity same =>
    rw [if_neg, if_pos same]
    rintro ⟨rfl, none⟩
    cases none.symm.trans same
  | constant differs some => rw [if_neg fun zero => some zero.1 zero.2, if_neg differs]

theorem totalApply (ms ns : List Int) :
    op.total (ms ++ ns) = op.apply (op.total ms) (op.total ns) := by
  cases op with
  | add => simp only [totalAdd, List.sum_append, AssocOp.apply]
  | mul => simp only [totalMul, List.prod_append, AssocOp.apply]

theorem applyIdentity (n : Int) : op.apply op.identity n = n ∧ op.apply n op.identity = n := by
  cases op with
  | add => exact ⟨zero_add n, add_zero n⟩
  | mul => exact ⟨one_mul n, mul_one n⟩

theorem drawnInAppend (xs ys : List Expr) :
    drawnIn op (xs ++ ys) = drawnIn op xs ++ drawnIn op ys :=
  List.flatMap_append

theorem drawnInCons (e : Expr) (es : List Expr) :
    drawnIn op (e :: es) = spliced op e ++ drawnIn op es :=
  List.flatMap_cons

theorem numbersNone (none : ∀ e ∈ es, e.const? = none) : numbers es = [] :=
  List.filterMap_eq_nil_iff.2 none

def tally (op : AssocOp) (es : List Expr) : Int × List Expr := (op.total (numbers es), others es)

theorem tallyAppend (xs ys : List Expr) : tally op (xs ++ ys) =
    (op.apply (tally op xs).1 (tally op ys).1, (tally op xs).2 ++ (tally op ys).2) := by
  unfold tally numbers others
  rw [List.filterMap_append, List.filter_append, totalApply]

theorem tallyConst (n : Int) : tally op [.const n] = (n, []) := by
  cases op with
  | add => exact Prod.ext (zero_add n) rfl
  | mul => exact Prod.ext (one_mul n) rfl

theorem tallyOthers (op : AssocOp) (none : ∀ e ∈ es, e.const? = none) :
    tally op es = (op.identity, es) := by
  rw [tally, numbersNone none, othersAll (numbersNone none)]
  rfl

theorem tallyLed (n : Int) (none : ∀ e ∈ es, e.const? = none) :
    tally op (.const n :: es) = (n, es) := by
  show tally op ([.const n] ++ es) = _
  rw [tallyAppend, tallyConst, tallyOthers op none]
  exact Prod.ext (applyIdentity n).2 rfl

theorem blendOf (same : tally op (drawnIn op xs) = (n, es)) : blend op xs = fronted op n es :=
  congrArg (fun t : Int × List Expr => fronted op t.1 t.2) same

theorem blendTally (same : tally op (drawnIn op xs) = tally op (drawnIn op ys)) :
    blend op xs = blend op ys :=
  blendOf same

theorem blendAbsorbed (zero : (tally .mul (drawnIn .mul es)).1 = 0) : blend .mul es = .const 0 :=
  if_pos ⟨rfl, zero⟩

theorem frontedConst (op : AssocOp) (n : Int) : fronted op n [] = .const n := by
  unfold fronted
  split
  · rename_i zero
    rw [zero.2]
  · split
    · rename_i same
      rw [same]
      rfl
    · rfl

theorem frontedOthers (op : AssocOp) (es : List Expr) :
    fronted op op.identity es = .join op es := by
  unfold fronted
  rw [if_neg, if_pos rfl]
  rintro ⟨rfl, zero⟩
  cases zero

theorem frontedTally (apart : ∀ e ∈ es, rootOp? e ≠ some op) (none : ∀ e ∈ es, e.const? = none)
    (some : ¬(op = .mul ∧ n = 0)) : tally op (spliced op (fronted op n es)) = (n, es) := by
  unfold fronted
  rw [if_neg some]
  split
  · rename_i same
    rcases es with _ | ⟨first, _ | ⟨second, rest⟩⟩
    · exact (tallyConst _).trans (by rw [same])
    · show tally op (spliced op first) = _
      rw [splicedAlone (apart first (by simp)), tallyOthers op none, same]
    · have parts : spliced op (.flat op first second rest) = first :: second :: rest := if_pos rfl
      show tally op (spliced op (.flat op first second rest)) = _
      rw [parts, tallyOthers op none, same]
  · rcases es with _ | ⟨first, rest⟩
    · exact tallyConst n
    · have parts : spliced op (.flat op (.const n) first rest) = .const n :: first :: rest :=
        if_pos rfl
      show tally op (spliced op (.flat op (.const n) first rest)) = _
      rw [parts, tallyLed n none]

theorem frontedHolds {P : Expr → Prop} (number : ∀ m, P (.const m)) (each : ∀ e ∈ es, P e)
    (alone : ∀ first second rest, first :: second :: rest = es → P (.flat op first second rest))
    (led : ¬(op = .mul ∧ n = 0) → n ≠ op.identity →
      ∀ first rest, first :: rest = es → P (.flat op (.const n) first rest)) :
    P (fronted op n es) := by
  unfold fronted
  split
  · exact number 0
  · rename_i some
    split
    · match es with
      | [] => exact number _
      | [e] => exact each e List.mem_cons_self
      | first :: second :: rest => exact alone first second rest rfl
    · rename_i differs
      match es with
      | [] => exact number n
      | first :: rest => exact led some differs first rest rfl

theorem blendSelf {first second : Expr} {rest : List Expr}
    (drawn : drawnIn op (first :: second :: rest) = first :: second :: rest)
    (behind : ∀ e ∈ second :: rest, e.const? = none)
    (front : ∀ n, first = .const n → ¬(op = .mul ∧ n = 0) ∧ n ≠ op.identity) :
    blend op (first :: second :: rest) = .flat op first second rest := by
  rcases constOrOther first with ⟨n, rfl⟩ | other
  · rw [blendOf ((congrArg (tally op) drawn).trans (tallyLed n behind))]
    unfold fronted
    rw [if_neg (front n rfl).1, if_neg (front n rfl).2]
    rfl
  · have read := tallyOthers op (List.forall_mem_cons.2 ⟨other, behind⟩)
    rw [blendOf ((congrArg (tally op) drawn).trans read), frontedOthers]
    rfl

end Operands

inductive Blended : Expr → Prop where
  | const (n : Int) : Blended (.const n)
  | var (name : String) : Blended (.var name)
  | neg {arg : Expr} (inner : Blended arg) : Blended (.neg arg)
  | bin {op : BinOp} {left right : Expr} (other : op.assoc? = none) (onLeft : Blended left)
      (onRight : Blended right) : Blended (.bin op left right)
  | flat {op : AssocOp} {first second : Expr} {rest : List Expr}
      (each : ∀ e ∈ first :: second :: rest, Blended e)
      (apart : ∀ e ∈ first :: second :: rest, rootOp? e ≠ some op)
      (behind : ∀ e ∈ second :: rest, e.const? = none)
      (front : ∀ n, first = .const n → ¬(op = .mul ∧ n = 0) ∧ n ≠ op.identity) :
      Blended (.flat op first second rest)

section Blends

variable {op : AssocOp} {n : Int} {e : Expr} {es xs ys zs : List Expr}

theorem Blended.flattened (blended : Blended e) : Flattened e := by
  induction blended with
  | const n => exact .const n
  | var name => exact .var name
  | neg _ ih => exact .neg ih
  | bin other _ _ ihl ihr => exact .bin other ihl ihr
  | flat _ apart _ _ ih => exact .flat ih apart

theorem blendedDrawnIn (each : ∀ e ∈ es, Blended e) :
    ∀ t ∈ drawnIn op es, Blended t ∧ rootOp? t ≠ some op := by
  intro t mem
  have parts : ∀ first second rest, Blended (.flat op first second rest) →
      ∀ e ∈ first :: second :: rest, Blended e := by
    intro first second rest blended
    cases blended with
    | flat each _ _ _ => exact each
  have found := drawnInFlattened (fun e mem => (each e mem).flattened) each parts t mem
  exact ⟨found.2.2, found.2.1⟩

theorem othersDrawnIn (op : AssocOp) (each : ∀ e ∈ es, Blended e) :
    ∀ t ∈ others (drawnIn op es), Blended t ∧ rootOp? t ≠ some op ∧ t.const? = none := by
  intro t mem
  obtain ⟨inside, other⟩ := List.mem_filter.1 mem
  have found := blendedDrawnIn each t inside
  exact ⟨found.1, found.2, Option.isNone_iff_eq_none.1 other⟩

theorem blendBlended (each : ∀ e ∈ es, Blended e) : Blended (blend op es) := by
  have known := othersDrawnIn op each
  refine frontedHolds .const (fun e mem => (known e mem).1) ?_ ?_
  · intro first second rest kept
    rw [← kept] at known
    refine .flat (fun e mem => (known e mem).1) (fun e mem => (known e mem).2.1)
      (fun e mem => (known e (List.mem_cons_of_mem _ mem)).2.2) fun n constant => ?_
    have other := (known first List.mem_cons_self).2.2
    rw [constant] at other
    cases other
  · intro some differs first rest kept
    rw [← kept] at known
    refine .flat (List.forall_mem_cons.2 ⟨.const _, fun e mem => (known e mem).1⟩)
      (List.forall_mem_cons.2 ⟨by simp [rootOp?], fun e mem => (known e mem).2.1⟩)
      (fun e mem => (known e mem).2.2) fun n constant => ?_
    cases constant
    exact ⟨some, differs⟩

/- Nothing is gained by combining first what will be combined with more. -/
theorem blendNested (op : AssocOp) (xs zs : List Expr) (each : ∀ e ∈ ys, Blended e) :
    blend op (xs ++ blend op ys :: zs) = blend op (xs ++ (ys ++ zs)) := by
  have known := othersDrawnIn op each
  by_cases zero : op = .mul ∧ op.total (numbers (drawnIn op ys)) = 0
  · obtain ⟨rfl, none⟩ := zero
    have absorbs : ∀ es, (tally .mul es).1 = 0 → ∀ front back,
        (tally .mul (front ++ (es ++ back))).1 = 0 := by
      intro es zero front back
      rw [tallyAppend, tallyAppend, zero]
      show _ * (0 * _) = (0 : Int)
      rw [zero_mul, mul_zero]
    rw [blendAbsorbed none, blendAbsorbed, blendAbsorbed]
    · rw [drawnInAppend, drawnInAppend]
      exact absorbs _ none _ _
    · rw [drawnInAppend, drawnInCons]
      exact absorbs [.const 0] rfl _ _
  · refine blendTally ?_
    have inner : tally op (spliced op (blend op ys)) = tally op (drawnIn op ys) :=
      frontedTally (fun e mem => (known e mem).2.1) (fun e mem => (known e mem).2.2) zero
    rw [drawnInAppend, drawnInCons, drawnInAppend, drawnInAppend, tallyAppend, tallyAppend,
      tallyAppend (drawnIn op xs), tallyAppend (drawnIn op ys), inner]

theorem blendApart (apart : rootOp? e ≠ some op) : blend op [e] = e := by
  have alone : drawnIn op [e] = [e] := drawnInSelf (by simpa using apart)
  rcases constOrOther e with ⟨n, rfl⟩ | other
  · rw [blendOf ((congrArg (tally op) alone).trans (tallyConst n)), frontedConst]
  · have none : ∀ t ∈ [e], t.const? = none := by simpa using other
    rw [blendOf ((congrArg (tally op) alone).trans (tallyOthers op none)), frontedOthers]
    rfl

theorem blendOperands {first second : Expr} {rest : List Expr}
    (blended : Blended (.flat op first second rest)) :
    blend op (first :: second :: rest) = .flat op first second rest := by
  cases blended with
  | flat _ apart behind front => exact blendSelf (drawnInSelf apart) behind front

theorem blendSingle (blended : Blended e) : blend op [e] = e := by
  by_cases root : rootOp? e = some op
  · cases blended with
    | bin other _ _ => cases other.symm.trans root
    | @flat inner first second rest each apart behind front =>
      obtain rfl := Option.some.inj root
      have whole : Blended (.flat inner first second rest) := .flat each apart behind front
      have nested := blendNested inner [] [] each
      rw [blendOperands whole, List.append_nil, List.nil_append, List.nil_append,
        blendOperands whole] at nested
      exact nested
    | _ => cases root
  · exact blendApart root

end Blends

def blending : Interpretation { e : Expr // Blended e } where
  const n := ⟨.const n, .const n⟩
  var name := ⟨.var name, .var name⟩
  neg x := ⟨.neg x.1, .neg x.2⟩
  bin
    | .add => fun x y => ⟨blend .add [x.1, y.1], blendBlended (by simp [x.2, y.2])⟩
    | .sub => fun x y => ⟨.bin .sub x.1 y.1, .bin rfl x.2 y.2⟩
    | .mul => fun x y => ⟨blend .mul [x.1, y.1], blendBlended (by simp [x.2, y.2])⟩
    | .div => fun x y => ⟨.bin .div x.1 y.1, .bin rfl x.2 y.2⟩
  assoc op x y z := by
    have left : blend op [blend op [x.1, y.1], z.1] = blend op [x.1, y.1, z.1] :=
      blendNested op [] [z.1] (by simp [x.2, y.2])
    have right : blend op [x.1, blend op [y.1, z.1]] = blend op [x.1, y.1, z.1] :=
      blendNested op [x.1] [] (by simp [y.2, z.2])
    cases op <;> exact Subtype.ext (left.trans right.symm)

section Sweeping

variable {settings : Settings} {e r : Expr}

theorem binBlends (op : AssocOp) (x y : { e : Expr // Blended e }) :
    (blending.bin op.bin x y).1 = blend op [x.1, y.1] := by
  cases op <;> rfl

theorem chainBlends (op : AssocOp) (x : { e : Expr // Blended e })
    (xs : List { e : Expr // Blended e }) :
    (blending.chain op x xs).1 = blend op (x.1 :: xs.map Subtype.val) := by
  induction xs generalizing x with
  | nil => exact (blendSingle x.2).symm
  | cons y ys ih =>
    refine (ih _).trans ?_
    rw [binBlends]
    exact blendNested op [] _ (by simp [x.2, y.2])

theorem valueBlends (op : AssocOp) (first second : Expr) (rest : List Expr) :
    ((Expr.flat op first second rest).value blending).1 =
      blend op ((first :: second :: rest).map fun e => (e.value blending).1) := by
  rw [valueFlat, chainBlends, List.map_map]
  rfl

theorem sweepBlends (run : e.bottomUpM foldConstantsNode = .ok r) (flattened : Flattened e) :
    (e.value blending).1 = r := by
  refine bottomUpInduction (P := fun e r => Flattened e → (e.value blending).1 = r)
    ?_ ?_ ?_ ?_ ?_ run flattened
  · intro n r last _
    cases last
    rfl
  · intro name r last _
    cases last
    rfl
  · intro arg a r worked last flattened
    cases last
    cases flattened with
    | neg inner => exact congrArg Expr.neg (worked inner)
  · intro op left right l r' r onLeft onRight last flattened
    cases last
    cases flattened with
    | bin other inLeft inRight =>
      have both := congrArg₂ (Expr.bin op) (onLeft inLeft) (onRight inRight)
      cases op with
      | sub => exact both
      | div => exact both
      | _ => cases other
  · intro op first second rest a b more r worked last flattened
    cases flattened with
    | flat each _ =>
      have values :
          (first :: second :: rest).map (fun e => (e.value blending).1) = a :: b :: more := by
        refine List.forall₂_eq_eq_eq ▸ List.forall₂_map_left_iff.2 ?_
        exact forallTwoOfMem worked fun e mem r made => made (each e mem)
      rw [valueBlends, values]
      exact (foldConstantsNodeOk last).blends.symm

theorem blendedMeans (blended : Blended e) : (e.value blending).1 = e := by
  induction blended with
  | const n => rfl
  | var name => rfl
  | neg _ ih => exact congrArg Expr.neg ih
  | @bin op _ _ other _ _ ihl ihr =>
    have both := congrArg₂ (Expr.bin op) ihl ihr
    cases op with
    | sub => exact both
    | div => exact both
    | _ => cases other
  | @flat op first second rest each apart behind front ih =>
    have operands : (first :: second :: rest).map (fun e => (e.value blending).1) =
        first :: second :: rest := (List.map_congr_left ih).trans (List.map_id _)
    rw [valueBlends, operands]
    exact blendOperands (.flat each apart behind front)

theorem foldConstantsBlends (run : foldConstants settings e = .ok r) (flattened : Flattened e) :
    (e.value blending).1 = r := by
  have kept : Flattened r ∧ r.value blending = e.value blending := by
    refine fixedPointKeeps (P := fun t => Flattened t ∧ t.value blending = e.value blending)
      (fun {a b} before stepped => ⟨(foldSweep before.1 stepped).1, ?_⟩) run ⟨flattened, rfl⟩
    refine (Subtype.ext ?_).trans before.2
    rw [← sweepBlends stepped before.1, blendedMeans (a.value blending).2]
  rw [← kept.2]
  exact sweepBlends (fixedPointStable run) kept.1

end Sweeping

section Units

variable {op : AssocOp} {e : Expr}

theorem tallyFront (op : AssocOp) (n : Int) (e : Expr) : tally op (drawnIn op [.const n, e]) =
    (op.apply n (tally op (drawnIn op [e])).1, (tally op (drawnIn op [e])).2) := by
  have apart : drawnIn op [.const n, e] = [.const n] ++ drawnIn op [e] := rfl
  rw [apart, tallyAppend, tallyConst]
  rfl

theorem tallyBack (op : AssocOp) (n : Int) (e : Expr) : tally op (drawnIn op [e, .const n]) =
    (op.apply (tally op (drawnIn op [e])).1 n, (tally op (drawnIn op [e])).2) := by
  have apart : drawnIn op [e, .const n] = drawnIn op [e] ++ [.const n] :=
    drawnInAppend [e] [.const n]
  rw [apart, tallyAppend, tallyConst]
  exact Prod.ext rfl (List.append_nil _)

theorem blendUnit (op : AssocOp) (blended : Blended e) :
    blend op [.const op.identity, e] = e ∧ blend op [e, .const op.identity] = e := by
  have front := tallyFront op op.identity e
  have back := tallyBack op op.identity e
  rw [(applyIdentity _).1] at front
  rw [(applyIdentity _).2] at back
  have alone : blend op [e] = e := blendSingle blended
  exact ⟨(blendTally front).trans alone, (blendTally back).trans alone⟩

theorem mulZeroBlends (x : { e : Expr // Blended e }) :
    blending.bin .mul x (blending.const 0) = blending.const 0 :=
  Subtype.ext (blendAbsorbed ((congrArg Prod.fst (tallyBack .mul 0 x.1)).trans (mul_zero _)))

theorem blendingLaws : blending.desugared.SignLaws where
  zeroAdd x := Subtype.ext (blendUnit .add x.2).1
  addZero x := Subtype.ext (blendUnit .add x.2).2
  zeroMul x :=
    Subtype.ext (blendAbsorbed ((congrArg Prod.fst (tallyFront .mul 0 x.1)).trans (zero_mul _)))
  mulZero := mulZeroBlends
  oneMul x := Subtype.ext (blendUnit .mul x.2).1
  mulOne x := Subtype.ext (blendUnit .mul x.2).2
  central n x := by
    refine Subtype.ext (blendTally ?_)
    refine (tallyBack .mul n x.1).trans (Eq.trans ?_ (tallyFront .mul n x.1).symm)
    exact Prod.ext (mul_comm _ _) rfl
  magnitude n := by
    refine Subtype.ext ((blendOf ?_).trans (frontedConst .mul n))
    have alone : drawnIn .mul [.const (-n)] = [.const (-n)] := rfl
    refine (tallyFront .mul (-1) (.const (-n))).trans ?_
    rw [alone, tallyConst]
    exact Prod.ext ((neg_mul_neg 1 n).trans (one_mul n)) rfl
  neg _ := rfl
  subZero x := by
    show blending.bin .add x (blending.bin .mul (blending.const (-1)) (blending.const 0)) = x
    rw [mulZeroBlends]
    exact Subtype.ext (blendUnit .add x.2).2
  zeroSub x := Subtype.ext (blendUnit .add (blending.desugared.neg x).2).1

end Units

end ArithEquiv.Normalize
