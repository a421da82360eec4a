import ArithEquiv.Proofs.Arithmetic

/-! Multiplying out and cancelling, as operations on terms. Every term of a sum meets every term
of the other factor, which is what a linear operation does to a sum. What cancels in a sum is, by
count, a part of its readings: the same terms for and against. -/
namespace ArithEquiv

namespace Normalize

open ArithEquiv.Expr

section Linear

variable {A : Type u} {i : Interpretation A}

def Summands.Linear (i : Interpretation A) (F : A → A) : Summands → Prop
  | .single _ => True
  | .chain op _ _ => ∀ x y, F (i.bin op x y) = i.bin op (F x) (F y)

theorem leftChainMap {f : Expr → Expr} {F : A → A} {op : BinOp}
    (each : ∀ t, (f t).value i = F (t.value i))
    (linear : ∀ x y, F (i.bin op x y) = i.bin op (F x) (F y)) (first : Expr) (rest : List Expr) :
    (leftChain op (f first) (rest.map f)).value i = F ((leftChain op first rest).value i) := by
  suffices h : ∀ start image : Expr, image.value i = F (start.value i) →
      (leftChain op image (rest.map f)).value i = F ((leftChain op start rest).value i) from
    h first (f first) (each first)
  induction rest with
  | nil =>
    intro start image same
    exact same
  | cons next rest ih =>
    intro start image same
    refine ih (.bin op start next) (.bin op image (f next)) ?_
    rw [valueBin, valueBin, linear, same, each]

theorem summandsMap {f : Expr → Expr} {F : A → A} {s : Summands} (linear : s.Linear i F)
    (each : ∀ t, (f t).value i = F (t.value i)) :
    (s.map f).join.value i = F (s.join.value i) := by
  cases s with
  | single term => exact each term
  | chain op first rest => exact leftChainMap each linear first rest

theorem crossValue {op : BinOp} {left right : Summands}
    (onRight : ∀ x, right.Linear i fun y => i.bin op x y)
    (onLeft : left.Linear i fun x => i.bin op x (right.join.value i)) :
    (Summands.cross op left right).value i =
      i.bin op (left.join.value i) (right.join.value i) :=
  summandsMap (F := fun x => i.bin op x (right.join.value i)) onLeft fun l =>
    summandsMap (F := fun y => i.bin op (l.value i) y) (onRight (l.value i)) fun _ => rfl

end Linear

theorem ofExprOp {e first : Expr} {op : BinOp} {rest : List Expr}
    (split : Summands.ofExpr e = .chain op first rest) : op = .add ∨ op = .sub := by
  cases e with
  | bin inner left right =>
    cases inner <;> simp only [Summands.ofExpr, Summands.chain.injEq, reduceCtorEq] at split
    · exact .inl split.1.symm
    · exact .inr split.1.symm
  | _ => simp [Summands.ofExpr] at split

end Normalize

namespace Arithmetic

variable {A : Type u} [CommSemiring A] {a : Arithmetic A}

theorem Exact.opposite (exact : a.Exact) (x : A) : x + a.const (-1) * x = 0 := by
  calc x + a.const (-1) * x = (a.const 1 + a.const (-1)) * x := by rw [add_mul, map_one, one_mul]
    _ = a.const (1 + -1) * x := by rw [exact.constAdd]
    _ = 0 := by rw [add_neg_cancel, map_zero, zero_mul]

theorem Exact.cancel (exact : a.Exact) {x y z : A} (same : x + z = y + z) : x = y := by
  have more := congrArg (· + a.const (-1) * z) same
  simp only [add_assoc] at more
  rwa [exact.opposite, add_zero, add_zero] at more

variable (a) in
structure Additive (F : A → A) : Prop where
  add : ∀ x y, F (x + y) = F x + F y
  sign : ∀ x, F (a.const (-1) * x) = a.const (-1) * F x

variable (a) in
theorem mulAdditive (k : A) : a.Additive fun x => k * x where
  add := mul_add k
  sign x := mul_left_comm k _ x

variable (a) in
theorem additiveMul (k : A) : a.Additive fun x => x * k where
  add x y := add_mul x y k
  sign x := mul_assoc _ x k

theorem Exact.divideAdditive (exact : a.Exact) (z : A) : a.Additive fun x => a.divide x z where
  add x y := exact.divideAdd x y z
  sign x := by
    have zero : a.divide 0 z = 0 := by
      apply exact.cancel (z := a.divide 0 z)
      rw [← exact.divideAdd, zero_add, zero_add]
    have whole : a.divide x z + a.divide (a.const (-1) * x) z = 0 := by
      rw [← exact.divideAdd, exact.opposite, zero]
    apply exact.cancel (z := a.divide x z)
    rw [add_comm, whole, add_comm, exact.opposite]

end Arithmetic

namespace Normalize

open ArithEquiv.Expr Arithmetic

section Distribution

variable {A : Type u} [CommSemiring A] (a : Arithmetic A)

theorem summandsLinear {a : Arithmetic A} {F : A → A} (additive : a.Additive F) (e : Expr) :
    (Summands.ofExpr e).Linear a.interpretation F := by
  cases split : Summands.ofExpr e with
  | single term => trivial
  | chain op first rest =>
    intro x y
    rcases ofExprOp split with rfl | rfl
    · exact additive.add x y
    · show F (x + a.const (-1) * y) = F x + a.const (-1) * F y
      rw [additive.add, additive.sign]

theorem multiplyOutOk {settings : Settings} {op : BinOp} {left right : Summands} {r : Expr}
    (run : multiplyOut settings op left right = .ok r) : r = Summands.cross op left right := by
  unfold multiplyOut at run
  dsimp only at run
  split at run
  · cases run
  · cases run; rfl

theorem distributeNodeKept {B : Type u} {i : Interpretation B} {settings : Settings} {e r : Expr}
    (run : distributeNode settings e = .ok r)
    (left : ∀ k t, (Summands.ofExpr t).Linear i fun x => i.bin .mul k x)
    (right : ∀ k t, (Summands.ofExpr t).Linear i fun x => i.bin .mul x k)
    (quotient : ∀ n d, e = .bin .div n d → (Summands.ofExpr n).isSingle = false →
      ∀ z, (Summands.ofExpr n).Linear i fun x => i.bin .div x z) : e.value i = r.value i := by
  unfold distributeNode at run
  split at run
  · rename_i l r'
    dsimp only at run
    split at run
    · cases run; rfl
    · rw [multiplyOutOk run, crossValue fun k => left k r', Summands.joinOfExpr, Summands.joinOfExpr]
      · rfl
      · exact right _ l
  · rename_i n d
    dsimp only at run
    split at run
    · cases run; rfl
    · rename_i many
      have whole : ∀ x, (Summands.single d).Linear i fun y => i.bin .div x y := fun _ => trivial
      rw [multiplyOutOk run, crossValue whole, Summands.joinOfExpr]
      · rfl
      · exact quotient n d rfl (by simpa using many) _
  · cases run; rfl

theorem distributeNodeValue {settings : Settings} {e r : Expr}
    (run : distributeNode settings e = .ok r)
    (quotient : ∀ n d, e = .bin .div n d → (Summands.ofExpr n).isSingle = false →
      ∀ z, a.Additive fun x => a.divide x z) : a.value e = a.value r :=
  distributeNodeKept run (fun k => summandsLinear (a.mulAdditive k))
    (fun k => summandsLinear (a.additiveMul k))
    fun n d same many z => summandsLinear (quotient n d same many z) n

theorem onesValue {a : Arithmetic A} (exact : a.Exact) (n : Nat) : a.value (ones n) = a.const n := by
  induction n with
  | zero => rfl
  | succ n ih => rw [ones, valueAdd, ih, Arithmetic.valueConst, ← exact.constAdd]; rfl

theorem constToOnesNodeOk {settings : Settings} {e r : Expr}
    (run : constToOnesNode settings e = .ok r) :
    (∃ n : Int, e = .const n ∧ r = if n < 0 then .neg (ones n.natAbs) else ones n.natAbs) ∨
      e.const? = none ∧ r = e := by
  unfold constToOnesNode at run
  split at run
  · rename_i n
    refine .inl ⟨n, rfl, ?_⟩
    split at run
    · cases run
    · split at run
      · rename_i negative
        cases run
        rw [if_pos negative]
      · rename_i positive
        cases run
        rw [if_neg positive]
  · rename_i other
    cases run
    refine .inr ⟨?_, rfl⟩
    cases e with
    | const n => exact absurd rfl (other n)
    | _ => rfl

theorem constToOnesNodeOther {settings : Settings} {e r : Expr} (other : e.const? = none)
    (run : constToOnesNode settings e = .ok r) : r = e := by
  rcases constToOnesNodeOk run with ⟨n, rfl, _⟩ | ⟨_, same⟩
  · cases other
  · exact same

theorem constToOnesNodeValue {a : Arithmetic A} (exact : a.Exact) {settings : Settings} {e r : Expr}
    (run : constToOnesNode settings e = .ok r) : a.value e = a.value r := by
  rcases constToOnesNodeOk run with ⟨n, rfl, rfl⟩ | ⟨_, rfl⟩
  · split
    · rw [Arithmetic.valueNeg, onesValue exact, Arithmetic.valueConst, ← map_mul]
      congr 1
      omega
    · rw [onesValue exact, Arithmetic.valueConst]
      congr 1
      omega
  · rfl

end Distribution

def opposites (operands : List Expr) : List Expr :=
  common ((operands.map Signed.ofExpr).filterMap Signed.minus?)
    ((operands.map Signed.ofExpr).filterMap Signed.plus?)

def gone (operands : List Expr) : List Signed :=
  (opposites operands).map .minus ++ (opposites operands).map .plus

theorem cancelledEq (operands : List Expr) : cancelled operands = keep operands (gone operands) :=
  rfl

theorem commonInter (xs ys : List Expr) :
    (common xs ys : Multiset Expr) = (xs : Multiset Expr) ∩ (ys : Multiset Expr) := by
  induction xs generalizing ys with
  | nil => exact (Multiset.zero_inter _).symm
  | cons x xs ih =>
    rw [common, ← Multiset.cons_coe]
    split
    · rename_i mem
      rw [← Multiset.cons_coe, ih, Multiset.cons_inter_of_pos _ (Multiset.mem_coe.2 mem),
        Multiset.coe_erase]
    · rename_i other
      rw [ih, Multiset.cons_inter_of_neg _ (mt Multiset.mem_coe.1 other)]

theorem signedApart (readings : List Signed) :
    (readings : Multiset Signed) = ((readings.filterMap Signed.minus?).map .minus : List Signed) +
      ((readings.filterMap Signed.plus?).map .plus : List Signed) := by
  induction readings with
  | nil => rfl
  | cons reading rest ih =>
    rw [← Multiset.cons_coe, ih]
    cases reading with
    | plus term => exact (Multiset.add_cons _ _ _).symm
    | minus term => exact (Multiset.cons_add _ _ _).symm

theorem goneLe (operands : List Expr) :
    (gone operands : Multiset Signed) ≤ (operands.map Signed.ofExpr : List Signed) := by
  rw [signedApart (operands.map Signed.ofExpr), gone, ← Multiset.coe_add]
  refine add_le_add ?_ ?_
  · rw [← Multiset.map_coe, ← Multiset.map_coe, opposites, commonInter]
    exact Multiset.map_le_map Multiset.inter_le_left
  · rw [← Multiset.map_coe, ← Multiset.map_coe, opposites, commonInter]
    exact Multiset.map_le_map Multiset.inter_le_right

theorem keepReadings {operands : List Expr} {away : List Signed}
    (part : (away : Multiset Signed) ≤ (operands.map Signed.ofExpr : List Signed)) :
    ((keep operands away).map Signed.ofExpr : List Signed) + (away : Multiset Signed) =
      (operands.map Signed.ofExpr : List Signed) := by
  induction operands generalizing away with
  | nil =>
    obtain rfl : away = [] := (Multiset.coe_eq_zero _).1 (Multiset.le_zero.1 part)
    rfl
  | cons e rest ih =>
    rw [List.map_cons, ← Multiset.cons_coe] at part
    rw [keep]
    split
    · rename_i mem
      have smaller := Multiset.erase_le_erase (Signed.ofExpr e) part
      rw [Multiset.erase_cons_head, Multiset.coe_erase] at smaller
      rw [List.map_cons, ← Multiset.cons_coe, ← ih smaller, ← Multiset.add_cons,
        ← Multiset.coe_erase, Multiset.cons_erase (Multiset.mem_coe.2 mem)]
    · rename_i other
      have smaller := (Multiset.le_cons_of_notMem (mt Multiset.mem_coe.1 other)).1 part
      rw [List.map_cons, List.map_cons, ← Multiset.cons_coe, ← Multiset.cons_coe,
        Multiset.cons_add, ih smaller]

theorem cancelledReadings (operands : List Expr) :
    ((cancelled operands).map Signed.ofExpr : List Signed) + (gone operands : Multiset Signed) =
      (operands.map Signed.ofExpr : List Signed) :=
  keepReadings (goneLe operands)

section Cancelling

variable {A : Type u} [CommSemiring A] (a : Arithmetic A)

def Signed.value : Signed → A
  | .plus term => a.value term
  | .minus term => a.const (-1) * a.value term

theorem valueReading (e : Expr) : (Signed.ofExpr e).value a = a.value e := by
  cases e with
  | const n =>
    rw [Signed.ofExpr]
    split
    · rw [Signed.value, Arithmetic.valueConst, Arithmetic.valueConst, ← map_mul]
      congr 1
      omega
    · rfl
  | _ => rfl

theorem readingsSum (operands : List Expr) :
    ((operands.map Signed.ofExpr).map (Signed.value a)).sum = (operands.map a.value).sum := by
  rw [List.map_map]
  exact congrArg List.sum (List.map_congr_left fun e _ => valueReading a e)

theorem goneSum (operands : List Expr) :
    ((gone operands).map (Signed.value a)).sum =
      ((opposites operands).map fun t => a.value t + a.const (-1) * a.value t).sum := by
  rw [gone, List.map_append, List.sum_append, List.map_map, List.map_map, add_comm]
  induction opposites operands with
  | nil => exact add_zero 0
  | cons t rest ih =>
    simp only [List.map_cons, List.sum_cons]
    rw [← ih]
    exact add_add_add_comm _ _ _ _

theorem cancelledSum (operands : List Expr) :
    (operands.map a.value).sum = ((cancelled operands).map a.value).sum +
      ((opposites operands).map fun t => a.value t + a.const (-1) * a.value t).sum := by
  have parts := congrArg (fun readings => (readings.map (Signed.value a)).sum)
    (cancelledReadings operands)
  simp only [Multiset.map_add, Multiset.sum_add, Multiset.map_coe, Multiset.sum_coe] at parts
  rw [readingsSum, readingsSum, goneSum] at parts
  exact parts.symm

theorem cancelNodeValue {a : Arithmetic A} (opposite : ∀ x, x + a.const (-1) * x = 0) (e : Expr) :
    a.value e = a.value (cancelNode e) := by
  unfold cancelNode
  split
  · rename_i first second rest
    have pairs : ((opposites (first :: second :: rest)).map fun t =>
        a.value t + a.const (-1) * a.value t).sum = 0 := by
      refine List.sum_eq_zero fun x mem => ?_
      obtain ⟨t, _, rfl⟩ := List.mem_map.1 mem
      exact opposite _
    rw [Arithmetic.valueFlat, valueJoin]
    exact (cancelledSum a _).trans (by rw [pairs, add_zero]; rfl)
  · rfl

end Cancelling

end Normalize

end ArithEquiv
