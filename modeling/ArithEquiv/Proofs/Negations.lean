import ArithEquiv.Proofs.Failures
import ArithEquiv.Proofs.Nesting
import ArithEquiv.Proofs.Reassociation
import ArithEquiv.Proofs.SignedTerms

/-! Negations written as products with minus one and taken out again. Stacked negations and the product
below them become one list of factors, and every sweep takes one minus one from its front while the
sweeps before it go on below. Where no factor was signed before, nothing else is taken out, and what
the sweeps come to is the tree itself, flattened. -/
namespace ArithEquiv.Normalize

open ArithEquiv.Expr

def Unsigned : Expr → Prop
  | .neg _ => False
  | .const n => 0 ≤ n
  | _ => True

inductive UnsignedFactors : Expr → Prop where
  | node {e : Expr} (own : rootOp? e = some .mul → ∀ c ∈ e.children, Unsigned c)
      (each : ∀ c ∈ e.children, UnsignedFactors c) : UnsignedFactors e

namespace UnsignedFactors

variable {e left right : Expr} {op : BinOp}

theorem leaf (none : e.children = []) : UnsignedFactors e :=
  .node (by simp [none]) (by simp [none])

theorem neg (inner : UnsignedFactors e) : UnsignedFactors (.neg e) :=
  .node nofun (List.forall_mem_singleton.2 inner)

theorem bin (own : op = .mul → Unsigned left ∧ Unsigned right) (onLeft : UnsignedFactors left)
    (onRight : UnsignedFactors right) : UnsignedFactors (.bin op left right) := by
  refine .node (fun root => ?_) (List.forall_mem_cons.2 ⟨onLeft, List.forall_mem_singleton.2 onRight⟩)
  obtain ⟨first, second⟩ := own (BinOp.assocIffBin.1 root)
  exact List.forall_mem_cons.2 ⟨first, List.forall_mem_singleton.2 second⟩

end UnsignedFactors

def takenOut (e : Expr) : Expr := e.bottomUp takeSignNode

section Sweep

variable {e : Expr} {es : List Expr}

theorem takenConst (n : Int) : takenOut (.const n) = .const n := bottomUpConst _ n

theorem takenVar (name : String) : takenOut (.var name) = .var name := bottomUpVar _ name

theorem takenNeg (arg : Expr) : takenOut (.neg arg) = .neg (takenOut arg) := bottomUpNeg _ arg

theorem takenBin (op : BinOp) (left right : Expr) :
    takenOut (.bin op left right) = .bin op (takenOut left) (takenOut right) :=
  bottomUpBin _ op left right

theorem takenFlat (op : AssocOp) (first second : Expr) (rest : List Expr) :
    takenOut (.flat op first second rest) =
      takeSignNode (.flat op (takenOut first) (takenOut second) (rest.map takenOut)) :=
  bottomUpFlat _ op first second rest

theorem takenSum (es : List Expr) : takenOut (.join .add es) = .join .add (es.map takenOut) := by
  match es with
  | [] => exact takenConst 0
  | [e] => rfl
  | first :: second :: rest => exact takenFlat .add first second rest

theorem takeSignConst (e : Expr) : (takeSignNode e).const? = e.const? := by
  unfold takeSignNode
  split
  · split <;> rfl
  · rfl

theorem takenNegative (e : Expr) : negative? (takenOut e) = negative? e := by
  have same : (takenOut e).const? = e.const? := by
    cases e with
    | const n => rw [takenConst]
    | var name => rw [takenVar]
    | neg arg => rw [takenNeg]; rfl
    | bin op left right => rw [takenBin]; rfl
    | flat op first second rest => rw [takenFlat, takeSignConst]; rfl
  rw [negative?, negative?, same]

theorem splitNothing (plain : ∀ e ∈ es, negative? e = none) : splitNegative? es = none := by
  induction es with
  | nil => rfl
  | cons e rest ih =>
    obtain ⟨head, tail⟩ := List.forall_mem_cons.1 plain
    rw [splitNegative?, head, ih tail]
    rfl

theorem plainTaken (plain : ∀ e ∈ es, negative? e = none) :
    ∀ e ∈ es.map takenOut, negative? e = none :=
  List.forall_mem_map.2 fun e mem => (takenNegative e).trans (plain e mem)

theorem takenProduct (plain : ∀ e ∈ es, negative? e = none) :
    takenOut (.join .mul es) = .join .mul (es.map takenOut) := by
  match es with
  | [] => exact takenConst 1
  | [e] => rfl
  | first :: second :: rest =>
    have nothing : splitNegative? (takenOut first :: takenOut second :: rest.map takenOut) = none :=
      splitNothing (plainTaken plain)
    show takenOut (.flat .mul first second rest) = _
    rw [takenFlat, takeSignNode, nothing]
    rfl

theorem takenMinus (some : es ≠ []) :
    takenOut (.join .mul (.const (-1) :: es)) = .neg (.join .mul (es.map takenOut)) := by
  match es with
  | first :: rest =>
    show takenOut (.flat .mul (.const (-1)) first rest) = _
    rw [takenFlat, takenConst]
    rfl

theorem sweepsProduct (plain : ∀ e ∈ es, negative? e = none) (n : Nat) :
    takenOut^[n] (.join .mul es) = .join .mul (es.map takenOut^[n]) := by
  induction n generalizing es with
  | zero => exact congrArg (Expr.join .mul) es.map_id.symm
  | succ n ih =>
    rw [Function.iterate_succ_apply, takenProduct plain, ih (plainTaken plain), List.map_map]
    rfl

theorem sweepsSum (es : List Expr) (n : Nat) :
    takenOut^[n] (.join .add es) = .join .add (es.map takenOut^[n]) := by
  induction n generalizing es with
  | zero => exact congrArg (Expr.join .add) es.map_id.symm
  | succ n ih =>
    rw [Function.iterate_succ_apply, takenSum, ih, List.map_map]
    rfl

end Sweep

def Becomes (s t : Expr) : Prop := ∃ n, ∀ m, n ≤ m → takenOut^[m] s = t

section Becoming

variable {s t : Expr} {ss ts : List Expr}

theorem becomesItself (still : takenOut s = s) : Becomes s s :=
  ⟨0, fun m _ => Function.iterate_fixed still m⟩

theorem Becomes.later (becomes : Becomes s t) (n : Nat) : Becomes (takenOut^[n] s) t := by
  obtain ⟨k, all⟩ := becomes
  refine ⟨k, fun m late => ?_⟩
  rw [← Function.iterate_add_apply]
  exact all (m + n) (late.trans (Nat.le_add_right m n))

theorem becomesNext (becomes : Becomes (takenOut s) t) : Becomes s t := by
  obtain ⟨k, all⟩ := becomes
  refine ⟨k + 1, fun m late => ?_⟩
  obtain ⟨m, rfl⟩ := Nat.exists_eq_add_of_le' late
  exact all (m + k) (Nat.le_add_left k m)

theorem Becomes.neg (becomes : Becomes s t) : Becomes (.neg s) (.neg t) := by
  obtain ⟨k, all⟩ := becomes
  refine ⟨k, fun m late => ?_⟩
  rw [← (Function.Semiconj.iterate_right (fun arg => (takenNeg arg).symm) m) s, all m late]

theorem Becomes.bin {s' t' : Expr} (op : BinOp) (onLeft : Becomes s t) (onRight : Becomes s' t') :
    Becomes (.bin op s s') (.bin op t t') := by
  obtain ⟨k, left⟩ := onLeft
  obtain ⟨k', right⟩ := onRight
  refine ⟨max k k', fun m late => ?_⟩
  rw [Function.Semiconj₂.iterate (takenBin op) m, left m (by omega), right m (by omega)]

theorem becomesAll (each : List.Forall₂ Becomes ss ts) :
    ∃ n, ∀ m, n ≤ m → ss.map takenOut^[m] = ts := by
  induction each with
  | nil => exact ⟨0, fun _ _ => rfl⟩
  | cons first _ ih =>
    obtain ⟨k, head⟩ := first
    obtain ⟨k', tail⟩ := ih
    refine ⟨max k k', fun m late => ?_⟩
    rw [List.map_cons, head m (by omega), tail m (by omega)]

theorem becomesSum (each : List.Forall₂ Becomes ss ts) : Becomes (.join .add ss) (.join .add ts) := by
  obtain ⟨k, all⟩ := becomesAll each
  exact ⟨k, fun m late => by rw [sweepsSum, all m late]⟩

theorem becomesProduct (each : List.Forall₂ Becomes ss ts) (plain : ∀ s ∈ ss, negative? s = none) :
    Becomes (.join .mul ss) (.join .mul ts) := by
  obtain ⟨k, all⟩ := becomesAll each
  exact ⟨k, fun m late => by rw [sweepsProduct plain, all m late]⟩

end Becoming

section Products

variable {e : Expr} {op : AssocOp}

theorem negToMulConst (n : Int) : negToMul (.const n) = .const n := bottomUpConst _ n

theorem negToMulVar (name : String) : negToMul (.var name) = .var name := bottomUpVar _ name

theorem negToMulNeg (arg : Expr) : negToMul (.neg arg) = .bin .mul (.const (-1)) (negToMul arg) :=
  bottomUpNeg _ arg

theorem negToMulBin (op : BinOp) (left right : Expr) :
    negToMul (.bin op left right) = .bin op (negToMul left) (negToMul right) :=
  bottomUpBin _ op left right

theorem negToMulFlat (op : AssocOp) (first second : Expr) (rest : List Expr) :
    negToMul (.flat op first second rest) =
      .flat op (negToMul first) (negToMul second) (rest.map negToMul) :=
  bottomUpFlat _ op first second rest

theorem operandsForRoot (root : rootOp? e = some op) :
    operandsFor op e = e.children.flatMap (operandsFor op) := by
  cases e with
  | bin inner left right =>
    obtain rfl := BinOp.assocIffBin.1 root
    rw [operandsForBin]
    exact congrArg (operandsFor op left ++ ·) (List.append_nil _).symm
  | flat inner first second rest =>
    obtain rfl := Option.some.inj root
    exact operandsForFlat inner first second rest
  | _ => cases root

theorem negToMulRoot (root : rootOp? e = some op) :
    rootOp? (negToMul e) = some op ∧ (negToMul e).children = e.children.map negToMul := by
  cases e with
  | bin inner left right => rw [negToMulBin]; exact ⟨root, rfl⟩
  | flat inner first second rest => rw [negToMulFlat]; exact ⟨root, rfl⟩
  | _ => cases root

theorem negToMulOperands (root : rootOp? e = some op) : operandsFor op (negToMul e) =
    e.children.flatMap fun c => operandsFor op (negToMul c) := by
  rw [operandsForRoot (negToMulRoot root).1, (negToMulRoot root).2, List.flatMap_map]

theorem rootNegative (root : rootOp? e = some op) : negative? e = none := by
  cases e with
  | const n => cases root
  | _ => rfl

end Products

/- Taking signs out gives the tree back from its products with minus one, also when sweeps have gone
over their factors before. -/
structure Restores (e : Expr) : Prop where
  within : ∀ n,
    Becomes (.join .mul ((operandsFor .mul (negToMul e)).map takenOut^[n])) (flattenOnce e)
  addends : List.Forall₂ Becomes (operandsFor .add (negToMul e)) (operandsFor .add e)
  factors : Unsigned e → List.Forall₂ Becomes (operandsFor .mul (negToMul e)) (operandsFor .mul e) ∧
    ∀ s ∈ operandsFor .mul (negToMul e), negative? s = none

section Restoring

variable {e : Expr} {op : AssocOp}

theorem becomesWhole {t : Expr}
    (within : ∀ n, Becomes (.join .mul ((operandsFor .mul e).map takenOut^[n])) t) :
    Becomes (flattenOnce e) t := by
  have start := within 0
  rwa [Function.iterate_zero, List.map_id, joinOperandsFor] at start

theorem Restores.whole (restores : Restores e) :
    Becomes (flattenOnce (negToMul e)) (flattenOnce e) :=
  becomesWhole restores.within

theorem operandsAlone (other : rootOp? e ≠ some op) (other' : rootOp? (negToMul e) ≠ some op)
    (becomes : Becomes (flattenOnce (negToMul e)) (flattenOnce e)) :
    List.Forall₂ Becomes (operandsFor op (negToMul e)) (operandsFor op e) := by
  rw [operandsForOther other, operandsForOther other']
  exact .cons becomes .nil

theorem operandsRestored (root : rootOp? e = some op)
    (each : ∀ c ∈ e.children,
      List.Forall₂ Becomes (operandsFor op (negToMul c)) (operandsFor op c)) :
    List.Forall₂ Becomes (operandsFor op (negToMul e)) (operandsFor op e) := by
  rw [negToMulOperands root, operandsForRoot root]
  generalize e.children = cs at each ⊢
  induction cs with
  | nil => exact .nil
  | cons c rest ih =>
    obtain ⟨one, more⟩ := List.forall_mem_cons.1 each
    exact List.rel_append one (ih more)

theorem restoresApart (other : rootOp? e ≠ some .mul) (other' : rootOp? (negToMul e) ≠ some .mul)
    (becomes : Becomes (flattenOnce (negToMul e)) (flattenOnce e))
    (plain : Unsigned e → negative? (flattenOnce (negToMul e)) = none)
    (addends : List.Forall₂ Becomes (operandsFor .add (negToMul e)) (operandsFor .add e)) :
    Restores e := by
  refine ⟨fun n => ?_, addends, fun unsigned => ⟨operandsAlone other other' becomes, ?_⟩⟩
  · rw [operandsForOther other']
    exact becomes.later n
  · rw [operandsForOther other']
    exact List.forall_mem_singleton.2 (plain unsigned)

theorem restoresOther (root : rootOp? e = none) (root' : rootOp? (negToMul e) = none)
    (becomes : Becomes (flattenOnce (negToMul e)) (flattenOnce e))
    (plain : Unsigned e → negative? (flattenOnce (negToMul e)) = none) : Restores e := by
  have other : ∀ op, rootOp? e ≠ some op := by simp [root]
  have other' : ∀ op, rootOp? (negToMul e) ≠ some op := by simp [root']
  exact restoresApart (other .mul) (other' .mul) becomes plain
    (operandsAlone (other .add) (other' .add) becomes)

theorem restoresSum (root : rootOp? e = some .add) (parts : ∀ c ∈ e.children, Restores c) :
    Restores e := by
  have addends := operandsRestored root fun c mem => (parts c mem).addends
  have becomes := becomesSum addends
  rw [joinOperandsFor, joinOperandsFor] at becomes
  have root' := (negToMulRoot root).1
  refine restoresApart (by simp [root]) (by simp [root']) becomes (fun _ => ?_) addends
  exact rootNegative ((flattensWell (negToMul e)).root.trans root')

theorem restoresProduct (root : rootOp? e = some .mul) (unsigned : ∀ c ∈ e.children, Unsigned c)
    (parts : ∀ c ∈ e.children, Restores c) : Restores e := by
  have factors := operandsRestored root fun c mem => ((parts c mem).factors (unsigned c mem)).1
  have plain : ∀ s ∈ operandsFor .mul (negToMul e), negative? s = none := by
    intro s mem
    rw [negToMulOperands root] at mem
    obtain ⟨c, inside, mem⟩ := List.mem_flatMap.1 mem
    exact ((parts c inside).factors (unsigned c inside)).2 s mem
  have becomes := becomesProduct factors plain
  rw [joinOperandsFor, joinOperandsFor] at becomes
  refine ⟨fun n => ?_, ?_, fun _ => ⟨factors, plain⟩⟩
  · rw [← sweepsProduct plain, joinOperandsFor]
    exact becomes.later n
  · exact operandsAlone (by simp [root]) (by simp [(negToMulRoot root).1]) becomes

/- The next sweep takes the sign out that the negation put in front of the factors of its argument. -/
theorem restoresNeg {arg : Expr} (inner : Restores arg) : Restores (.neg arg) := by
  have front : operandsFor .mul (negToMul (.neg arg)) =
      .const (-1) :: operandsFor .mul (negToMul arg) := by
    have alone : operandsFor .mul (.const (-1)) = [.const (-1)] := by
      rw [operandsForOther (by simp [rootOp?]), flattenConst]
    rw [negToMulNeg]
    exact (operandsForBin .mul (.const (-1)) (negToMul arg)).trans (congrArg (· ++ _) alone)
  have within : ∀ n, Becomes (.join .mul ((operandsFor .mul (negToMul (.neg arg))).map takenOut^[n]))
      (flattenOnce (.neg arg)) := by
    intro n
    have some : (operandsFor .mul (negToMul arg)).map takenOut^[n] ≠ [] :=
      mt List.map_eq_nil_iff.1 (operandsSome .mul (negToMul arg))
    refine becomesNext ?_
    rw [front, List.map_cons, Function.iterate_fixed (takenConst (-1)), takenMinus some, List.map_map,
      ← Function.iterate_succ', flattenNeg]
    exact (inner.within (n + 1)).neg
  have other : rootOp? (negToMul (.neg arg)) ≠ some .add := by
    simp [negToMulNeg, rootOp?, BinOp.assoc?]
  exact ⟨within, operandsAlone (by simp [rootOp?]) other (becomesWhole within),
    fun unsigned => unsigned.elim⟩

theorem restoresAll (unsigned : UnsignedFactors e) : Restores e := by
  induction e using byChildren with
  | each e ih =>
    obtain ⟨own, each⟩ := unsigned
    have parts : ∀ c ∈ e.children, Restores c := fun c mem => ih c mem (each c mem)
    cases root : rootOp? e with
    | some op =>
      cases op with
      | add => exact restoresSum root parts
      | mul => exact restoresProduct root (own root) parts
    | none =>
      cases e with
      | const n =>
        refine restoresOther rfl (by rw [negToMulConst]; rfl) ?_ ?_
        · rw [negToMulConst, flattenConst]
          exact becomesItself (takenConst n)
        · intro positive
          have none : (some n).filter (· < 0) = none := by simpa using show 0 ≤ n from positive
          rw [negToMulConst, flattenConst]
          exact none
      | var name =>
        refine restoresOther rfl (by rw [negToMulVar]; rfl) ?_ ?_
        · rw [negToMulVar, flattenVar]
          exact becomesItself (takenVar name)
        · rw [negToMulVar, flattenVar]
          exact fun _ => rfl
      | neg arg => exact restoresNeg (parts arg List.mem_cons_self)
      | bin op left right =>
        have onLeft := (parts left List.mem_cons_self).whole
        have onRight := (parts right (List.mem_cons_of_mem _ List.mem_cons_self)).whole
        refine restoresOther root (by rw [negToMulBin]; exact root) ?_ ?_
        · rw [negToMulBin, flattenOther root, flattenOther root]
          exact onLeft.bin op onRight
        · rw [negToMulBin, flattenOther root]
          exact fun _ => rfl
      | flat op first second rest => cases root

end Restoring

section Runs

variable {settings : Settings} {e r t : Expr} {n : Nat}

theorem takenBack (unsigned : UnsignedFactors e) (run : takeSigns settings (negToMul e) = .ok r) :
    r = flattenOnce e := by
  obtain ⟨flat, first, run⟩ := bindOk.1 run
  have becomes : Becomes r (flattenOnce e) := by
    refine fixedPointKeeps (P := fun s => Becomes s (flattenOnce e)) (fun before stepped => ?_) run ?_
    · obtain rfl := Except.ok.inj stepped
      exact before.later 1
    · rw [flattenRun first]
      exact (restoresAll unsigned).whole
  have still : takenOut r = r := Except.ok.inj (fixedPointStable run)
  obtain ⟨n, all⟩ := becomes
  rw [← all n (Nat.le_refl n), Function.iterate_fixed still]

theorem negationsRestored (unsigned : UnsignedFactors e)
    (taken : takeSigns settings (negToMul e) = .ok r) (flattens : flatten settings e = .ok t) :
    r = t :=
  (takenBack unsigned taken).trans (flattenRun flattens).symm

theorem negationsReturn (unsigned : UnsignedFactors e) (room : Roomy settings n)
    (light : e.weight ≤ n) (products : 3 * (negToMul e).weight < n) :
    takeSigns settings (negToMul e) = .ok (flattenOnce e) ∧
      flatten settings e = .ok (flattenOnce e) := by
  have positive := weightPositive (negToMul e)
  constructor
  · rcases takeSignsReturns room products with ⟨r, taken⟩ | failed
    · rw [taken, takenBack unsigned taken]
    · cases takeSignsFault failed
  · rcases flattenReturns room (by omega) light with ⟨t, flattens⟩ | failed
    · rw [flattens, flattenRun flattens]
    · cases flattenFault failed

end Runs

def stackedNegations : Expr :=
  .bin .sub (.neg (.neg (.neg (.var "x"))))
    (.neg (.bin .mul (.var "x") (.bin .add (.neg (.const (-3))) (.neg (.var "y")))))

theorem stackedUnsigned : UnsignedFactors stackedNegations := by
  have own : Unsigned (.var "x") ∧ Unsigned (.bin .add (.neg (.const (-3))) (.neg (.var "y"))) :=
    ⟨trivial, trivial⟩
  have x : UnsignedFactors (.var "x") := .leaf rfl
  have sum : UnsignedFactors (.bin .add (.neg (.const (-3))) (.neg (.var "y"))) :=
    .bin nofun (.neg (.leaf rfl)) (.neg (.leaf rfl))
  exact .bin nofun (.neg (.neg (.neg x))) (.neg (.bin (fun _ => own) x sum))

theorem negationsRestoredStacked :
    takeSigns {} (negToMul stackedNegations) = .ok (flattenOnce stackedNegations) ∧
    flattenOnce stackedNegations =
      .bin .sub (.neg (.neg (.neg (.var "x"))))
        (.neg (.flat .mul (.var "x") (.flat .add (.neg (.const (-3))) (.neg (.var "y")) []) [])) := by
  have taken : takeSigns {} (negToMul stackedNegations) =
      .ok (.bin .sub (.neg (.neg (.neg (.var "x"))))
        (.neg (.flat .mul (.var "x") (.flat .add (.neg (.const (-3))) (.neg (.var "y")) []) []))) := by
    decide +kernel
  have flattens : flatten {} stackedNegations = .ok (flattenOnce stackedNegations) := by decide +kernel
  have same := negationsRestored stackedUnsigned taken flattens
  exact ⟨same ▸ taken, same.symm⟩

end ArithEquiv.Normalize
