import ArithEquiv.Proofs.UnitTerms

/-! Values in which opposite terms add to zero and a quotient is a letter for what its parts come to.
A quotient need not be additive in its numerator here, so distribution does not keep these values;
what follows distribution does. Of a tree in order with nothing left to cancel no part loses a term
to them, so such trees differ in order only if they have one value. -/
namespace ArithEquiv

namespace Formal

instance : Countable Collected := by
  have letters : Countable (Multiplicative (Multiset ℕ)) := Multiplicative.toAdd.injective.countable
  exact MonoidAlgebra.coeff_injective.countable

inductive NetLetter where
  | name (name : String)
  | quotient (left right : Collected)
  deriving Countable

noncomputable def netCode : NetLetter → ℕ := (Countable.exists_injective_nat NetLetter).choose

theorem netCodeInjective : Function.Injective netCode :=
  (Countable.exists_injective_nat NetLetter).choose_spec

noncomputable def net : Arithmetic Collected where
  const := (Int.castRingHom Collected).toMonoidWithZeroHom
  var name := MonoidAlgebra.single (.ofAdd {netCode (.name name)}) 1
  divide x y := MonoidAlgebra.single (.ofAdd {netCode (.quotient x y)}) 1

theorem netOpposite (x : Collected) : x + net.const (-1) * x = 0 := by
  have minus : net.const (-1) = ((-1 : ℤ) : Collected) := rfl
  rw [minus, Int.cast_neg, Int.cast_one, neg_one_mul, add_neg_cancel]

namespace Lettering

noncomputable def netting : Lettering where
  name name := netCode (.name name)
  quotient x y := netCode (.quotient (collect x) (collect y))

structure Nets (l : Lettering) : Prop where
  names : Function.Injective l.name
  apart : ∀ name x y, l.name name ≠ l.quotient x y
  parts : ∀ {x y z w}, l.quotient x y = l.quotient z w →
    collect x = collect z ∧ collect y = collect w

theorem nettingNets : netting.Nets where
  names _ _ same := NetLetter.name.inj (netCodeInjective same)
  apart _ _ _ same := by cases netCodeInjective same
  parts same := NetLetter.quotient.inj (netCodeInjective same)

end Lettering

end Formal

namespace Normalize

open ArithEquiv.Expr Formal

theorem collectNetting (e : Expr) : collect (Lettering.netting.value e) = net.value e := by
  have sign : ∀ x, collect (Formal.arithmetic.const (-1) * x) = net.const (-1) * collect x :=
    fun x => (map_mul collect _ x).trans (congrArg (· * collect x) (collectConst (-1)))
  refine valueMap _ _ collectConst (fun name => collectTerm 1 _) sign (fun op x y => ?_) e
  cases op with
  | add => exact map_add collect x y
  | sub => exact (map_add collect x _).trans (congrArg (collect x + ·) (sign y))
  | mul => exact map_mul collect x y
  | div => exact collectTerm 1 _

inductive Clear (l : Lettering) : Expr → Prop where
  | node {e : Expr} {ms : Multiset Monomial} (value : l.value e = gathered ms)
      (unopposed : Unopposed ms) (each : ∀ t ∈ e.children, Clear l t) : Clear l e

section Nets

variable {l : Lettering}

theorem Clear.child {e t : Expr} (clear : Clear l e) (mem : t ∈ e.children) : Clear l t := by
  cases clear with
  | node _ _ each => exact each t mem

theorem Clear.unique {a b : Expr} (clearA : Clear l a) (clearB : Clear l b)
    (same : collect (l.value a) = collect (l.value b)) : l.value a = l.value b := by
  cases clearA with
  | node valueA unopposedA _ =>
    cases clearB with
    | node valueB unopposedB _ =>
      rw [valueA, valueB] at same ⊢
      rw [unopposedUnique unopposedA unopposedB same]

theorem netsFaithful (nets : l.Nets) : l.Faithful (Clear l) where
  names := nets.names
  apart := nets.apart
  quotients clearA clearB clearC clearD same :=
    (nets.parts same).imp (clearA.unique clearC) (clearB.unique clearD)
  parts := Clear.child

theorem clearRearranged (nets : l.Nets) {a b : Expr} (shapedA : Shaped .signed a)
    (shapedB : Shaped .signed b) (clearA : Clear l a) (clearB : Clear l b)
    (same : collect (l.value a) = collect (l.value b)) : Rearranged a b :=
  valueRearranged (netsFaithful nets) shapedA shapedB clearA clearB (clearA.unique clearB same)

variable {v : Vocabulary} {hash : NodeHash} {e : Expr}

theorem clearNode (nets : l.Nets) (units : v.OnlyUnits) (shaped : Shaped .signed e)
    (written : WrittenIn v e) (settled : Settled hash e) (apart : ApartIn hash e e)
    (stable : e.bottomUp cancelNode = e) (each : ∀ t ∈ e.children, Clear l t) : Clear l e := by
  suffices value : ∃ ms, l.value e = gathered ms ∧ Unopposed ms by
    obtain ⟨ms, value, unopposed⟩ := value
    exact .node value unopposed each
  refine stableUnopposed l units shaped written stable ?_
  rintro first second rest rfl t mem arg mem' _ _ same
  have clear : Clear l arg := (each _ mem').child List.mem_cons_self
  cases shaped with
  | sum _ _ shaped =>
    cases shaped _ mem' with
    | neg _ _ inner =>
      have apart' : ApartIn hash t (.neg arg) := apart.operands mem mem'
      refine settledUnique (settledOperand settled t mem).1
        (settledNeg (settledOperand settled _ mem').1) apart' ?_
      exact valueRearranged (netsFaithful nets) (shaped t mem) inner (each t mem) clear same

theorem settledClear (nets : l.Nets) (units : v.OnlyUnits) (shaped : Shaped .signed e)
    (written : WrittenIn v e) (settled : Settled hash e) (apart : ApartIn hash e e)
    (stable : e.bottomUp cancelNode = e) : Clear l e := by
  have whole := shaped
  induction shaped with
  | const n => exact clearNode nets units whole written settled apart stable nofun
  | var name => exact clearNode nets units whole written settled apart stable nofun
  | @neg arg _ _ inner ih =>
    refine clearNode nets units whole written settled apart stable fun t mem => ?_
    obtain rfl := List.mem_singleton.1 mem
    have part : t.bottomUp cancelNode = t := Expr.neg.inj ((bottomUpNeg _ _).symm.trans stable)
    exact ih written.2 (settledNeg settled) apart part inner
  | @div left right _ onLeft onRight ihl ihr =>
    refine clearNode nets units whole written settled apart stable fun t mem => ?_
    obtain ⟨_, inLeft, inRight⟩ := settledBin settled
    have parts : Expr.bin .div (left.bottomUp cancelNode) (right.bottomUp cancelNode) =
        .bin .div left right := (bottomUpBin cancelNode .div left right).symm.trans stable
    obtain ⟨_, stableLeft, stableRight⟩ := Expr.bin.inj parts
    simp only [children, node, Node.children, List.mem_cons, List.not_mem_nil, or_false] at mem
    rcases mem with rfl | rfl
    · exact ihl written.2.1 inLeft apart.left stableLeft onLeft
    · exact ihr written.2.2 inRight apart.right stableRight onRight
  | product _ _ _ each ih =>
    refine clearNode nets units whole written settled apart stable fun t mem => ?_
    exact ih t mem (writtenFlat.1 written t mem) (settledOperand settled t mem).1
      (apart.operands mem mem) (stableOperand stable mem) (each t mem)
  | sum _ _ each ih =>
    refine clearNode nets units whole written settled apart stable fun t mem => ?_
    exact ih t mem (writtenFlat.1 written t mem) (settledOperand settled t mem).1
      (apart.operands mem mem) (stableOperand stable mem) (each t mem)

end Nets

end Normalize

end ArithEquiv
