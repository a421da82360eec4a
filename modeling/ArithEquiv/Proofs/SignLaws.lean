import ArithEquiv.Proofs.Runs

/-! Interpretations in which zero, one and minus one act as such, whether products and sums commute
or not. Reducing signs, dropping units and taking signs in front keep every value of this kind: a
sign may change its place, and nothing else does. -/
namespace ArithEquiv

namespace Interpretation

variable {A : Type u}

structure SignLaws (i : Interpretation A) : Prop where
  zeroAdd : ∀ x, i.bin .add (i.const 0) x = x
  addZero : ∀ x, i.bin .add x (i.const 0) = x
  zeroMul : ∀ x, i.bin .mul (i.const 0) x = i.const 0
  mulZero : ∀ x, i.bin .mul x (i.const 0) = i.const 0
  oneMul : ∀ x, i.bin .mul (i.const 1) x = x
  mulOne : ∀ x, i.bin .mul x (i.const 1) = x
  central : ∀ n x, i.bin .mul x (i.const n) = i.bin .mul (i.const n) x
  magnitude : ∀ n, i.bin .mul (i.const (-1)) (i.const (-n)) = i.const n
  neg : ∀ x, i.neg x = i.bin .mul (i.const (-1)) x
  subZero : ∀ x, i.bin .sub x (i.const 0) = x
  zeroSub : ∀ x, i.bin .sub (i.const 0) x = i.neg x

def product (i : Interpretation A) (values : List A) : A := values.foldr (i.bin .mul) (i.const 1)

end Interpretation

namespace Normalize

open ArithEquiv.Expr Interpretation

theorem isConstEq {n : Int} {e : Expr} (found : e.isConst n = true) : e = .const n := by
  cases e with
  | const m =>
    simp only [Expr.isConst, Expr.const?, beq_iff_eq, Option.some.injEq] at found
    rw [found]
  | _ => simp [Expr.isConst, Expr.const?] at found

theorem splitNegativeOk {es : List Expr} {n : Int} {others : List Expr}
    (found : splitNegative? es = some (n, others)) :
    n < 0 ∧ ∃ before after, es = before ++ .const n :: after ∧ others = before ++ after ∧
      ∀ e ∈ before, negative? e = none := by
  induction es generalizing others with
  | nil => cases found
  | cons e rest ih =>
    rw [splitNegative?] at found
    cases sign : negative? e with
    | some m =>
      rw [sign] at found
      cases found
      have known : e = .const n ∧ n < 0 := by
        cases e <;> simp_all [negative?, Expr.const?, Option.filter_eq_some_iff]
      exact ⟨known.2, [], rest, by rw [known.1]; rfl, rfl, by simp⟩
    | none =>
      rw [sign] at found
      obtain ⟨⟨m, more⟩, tail, same⟩ := Option.map_eq_some_iff.1 found
      cases same
      obtain ⟨negative, before, after, split, rest, none⟩ := ih tail
      refine ⟨negative, e :: before, after, by rw [split]; rfl, by rw [rest]; rfl, ?_⟩
      intro t mem
      rcases List.mem_cons.1 mem with rfl | mem
      · exact sign
      · exact none t mem

end Normalize

namespace Interpretation.SignLaws

open ArithEquiv.Expr Normalize

variable {A : Type u} {i : Interpretation A} (laws : i.SignLaws)

include laws

theorem productAppend (xs ys : List A) :
    i.product (xs ++ ys) = i.bin .mul (i.product xs) (i.product ys) := by
  induction xs with
  | nil => exact (laws.oneMul _).symm
  | cons x xs ih => exact (congrArg (i.bin .mul x) ih).trans (i.assoc .mul x _ _).symm

theorem chainProduct (x : A) (xs : List A) : i.chain .mul x xs = i.product (x :: xs) := by
  induction xs generalizing x with
  | nil => exact (laws.mulOne x).symm
  | cons y ys ih => exact (ih (i.bin .mul x y)).trans (i.assoc .mul x y _)

theorem valueJoin (es : List Expr) : (Expr.join .mul es).value i = i.product (es.map (value i)) := by
  match es with
  | [] => rfl
  | [e] => exact (laws.mulOne _).symm
  | first :: second :: rest => exact (valueFlat i .mul first second rest).trans (laws.chainProduct _ _)

theorem signApart (es : List Expr) : i.product (es.map (value i)) =
    i.bin .mul (i.const (if es.countP (·.isConst (-1)) % 2 = 0 then 1 else -1))
      (i.product ((es.filter fun e => !e.isConst (-1)).map (value i))) := by
  induction es with
  | nil => exact (laws.oneMul _).symm
  | cons e rest ih =>
    rw [List.map_cons, List.countP_cons, List.filter_cons]
    refine (congrArg (i.bin .mul (e.value i)) ih).trans ?_
    refine (i.assoc .mul _ _ _).symm.trans ?_
    cases sign : e.isConst (-1) with
    | true =>
      have turned : i.bin .mul (e.value i)
          (i.const (if rest.countP (·.isConst (-1)) % 2 = 0 then 1 else -1)) =
            i.const (if (rest.countP (·.isConst (-1)) + 1) % 2 = 0 then 1 else -1) := by
        rw [isConstEq sign, valueConst]
        rcases Nat.mod_two_eq_zero_or_one (rest.countP (·.isConst (-1))) with even | odd
        · rw [if_pos even, if_neg (by omega), laws.mulOne]
        · rw [if_neg (by omega), if_pos (by omega)]
          exact laws.magnitude 1
      exact congrArg (fun x => i.bin .mul x _) turned
    | false =>
      refine (congrArg (fun x => i.bin .mul x _) (laws.central _ _)).trans ?_
      exact i.assoc .mul _ _ _

theorem dropUnits (op : BinOp) (left right : Expr) :
    (Normalize.dropUnits op left right).value i = (Expr.bin op left right).value i := by
  unfold Normalize.dropUnits
  cases op with
  | mul =>
    dsimp only
    split_ifs with absorbs unitLeft unitRight
    · rcases Bool.or_eq_true_iff.1 absorbs with h | h
      · rw [isConstEq h]
        exact (laws.zeroMul _).symm
      · rw [isConstEq h]
        exact (laws.mulZero _).symm
    · rw [isConstEq unitLeft]
      exact (laws.oneMul _).symm
    · rw [isConstEq unitRight]
      exact (laws.mulOne _).symm
    · rfl
  | add =>
    dsimp only
    split_ifs with unitLeft unitRight
    · rw [isConstEq unitLeft]
      exact (laws.zeroAdd _).symm
    · rw [isConstEq unitRight]
      exact (laws.addZero _).symm
    · rfl
  | sub =>
    dsimp only
    split_ifs with unitRight unitLeft
    · rw [isConstEq unitRight]
      exact (laws.subZero _).symm
    · rw [isConstEq unitLeft]
      exact (laws.zeroSub _).symm
    · rfl
  | div => rfl

theorem dropUnitsNode {e r : Expr} (run : Normalize.dropUnitsNode e = .ok r) :
    e.value i = r.value i := by
  cases e with
  | flat op first second rest => cases run
  | bin op left right =>
    cases run
    exact (laws.dropUnits op left right).symm
  | _ => cases run; rfl

theorem signParityNode (e : Expr) : (Normalize.signParityNode e).value i = e.value i := by
  unfold Normalize.signParityNode
  split
  · rename_i first second rest
    dsimp only
    split
    · rfl
    · have whole : (Expr.flat .mul first second rest).value i =
          i.product ((first :: second :: rest).map (value i)) :=
        laws.valueJoin (first :: second :: rest)
      rw [whole, laws.signApart]
      refine (laws.valueJoin (.const _ :: .const 1 :: _)).trans ?_
      exact congrArg (i.bin .mul _) (laws.oneMul _)
  · rfl

theorem takeSignNode (e : Expr) : (Normalize.takeSignNode e).value i = e.value i := by
  unfold Normalize.takeSignNode
  split
  · rename_i first second rest
    split
    · rfl
    · rename_i n others found
      obtain ⟨_, before, after, all, rfl, _⟩ := splitNegativeOk found
      have whole : (Expr.flat .mul first second rest).value i =
          i.bin .mul (i.const n) (i.product ((before ++ after).map (value i))) := by
        refine (laws.valueJoin (first :: second :: rest)).trans ?_
        rw [all, List.map_append, List.map_append, laws.productAppend, laws.productAppend]
        refine (i.assoc .mul _ _ _).symm.trans ?_
        refine (congrArg (fun x => i.bin .mul x _) (laws.central n _)).trans ?_
        exact i.assoc .mul _ _ _
      rw [whole, valueNeg, laws.neg, laws.valueJoin]
      split
      · rename_i one
        rw [one]
      · refine (i.assoc .mul _ _ _).symm.trans ?_
        exact congrArg (fun x => i.bin .mul x _) (laws.magnitude n)
  · rfl

section Passes

variable {settings : Settings} {e r : Expr}

theorem cleanSigns (run : Normalize.cleanSigns settings e = .ok r) :
    ∃ flat ordered, flatten settings e = .ok flat ∧ orderProducts settings flat = .ok ordered ∧
      r.value i = ordered.value i := by
  obtain ⟨flat, flattened, run⟩ := bindOk.1 run
  obtain ⟨ordered, sorted, last⟩ := bindOk.1 run
  refine ⟨flat, ordered, flattened, sorted, ?_⟩
  rw [unflattenValue _ last]
  exact (i.compatibleEq.bottomUp (fun e => (laws.signParityNode e).symm) ordered).symm

theorem cleanUnits (run : Normalize.cleanUnits settings e = .ok r) : r.value i = e.value i := by
  refine (fixedPointRelated i.compatibleEq (fun {b c} stepped => ?_) run).symm
  exact i.compatibleEq.bottomUpM laws.dropUnitsNode stepped

theorem takeSigns (run : Normalize.takeSigns settings e = .ok r) : r.value i = e.value i := by
  obtain ⟨flat, flattened, run⟩ := bindOk.1 run
  refine Eq.trans (Eq.symm ?_) (flattenValue i flattened)
  refine fixedPointRelated i.compatibleEq (fun {b c} stepped => ?_) run
  cases stepped
  exact i.compatibleEq.bottomUp (fun e => (laws.takeSignNode e).symm) b

theorem signed (run : Normalize.signed settings e = .ok r) : ∃ products flat ordered,
    distributed settings e = .ok products ∧ flatten settings products = .ok flat ∧
      orderProducts settings flat = .ok ordered ∧ r.value i = ordered.value i := by
  obtain ⟨products, multiplied, run⟩ := bindOk.1 run
  obtain ⟨signs, reduced, run⟩ := bindOk.1 run
  obtain ⟨units, cleaned, last⟩ := bindOk.1 run
  obtain ⟨flat, ordered, flattened, sorted, kept⟩ := laws.cleanSigns reduced
  refine ⟨products, flat, ordered, multiplied, flattened, sorted, ?_⟩
  rw [laws.takeSigns last, laws.cleanUnits cleaned, kept]

end Passes

end Interpretation.SignLaws

end ArithEquiv
