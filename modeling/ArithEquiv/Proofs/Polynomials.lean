import ArithEquiv.Proofs.FormalSums
import ArithEquiv.Proofs.Soundness
import Mathlib.Algebra.MonoidAlgebra.Basic
import Mathlib.Algebra.MvPolynomial.Eval

/-! The polynomial that a tree without quotients denotes. Formal sums lose to it only which terms
were not yet combined: of a formal sum whose coefficients are one and minus one, and where no
monomial has both, nothing is lost. -/
namespace ArithEquiv

namespace Expr

inductive DivisionFree : Expr → Prop where
  | const (n : Int) : DivisionFree (.const n)
  | var (name : String) : DivisionFree (.var name)
  | neg {arg : Expr} (inner : DivisionFree arg) : DivisionFree (.neg arg)
  | bin {op : BinOp} {left right : Expr} (other : op ≠ .div) (onLeft : DivisionFree left)
      (onRight : DivisionFree right) : DivisionFree (.bin op left right)
  | flat {op : AssocOp} {first second : Expr} {rest : List Expr}
      (each : ∀ e ∈ first :: second :: rest, DivisionFree e) :
      DivisionFree (.flat op first second rest)

theorem divisionFreeWritten {e : Expr} (free : e.DivisionFree) :
    WrittenIn ⟨fun _ => True, True, True, False⟩ e := by
  induction free with
  | const n => trivial
  | var name => trivial
  | neg _ ih => exact ⟨trivial, ih⟩
  | @bin op _ _ other _ _ ihl ihr =>
    cases op with
    | add => exact ⟨ihl, ihr⟩
    | mul => exact ⟨ihl, ihr⟩
    | sub => exact ⟨trivial, ihl, ihr⟩
    | div => exact absurd rfl other
  | flat _ ih => exact writtenFlat.2 ih

end Expr

noncomputable def polynomials : Meaning (MvPolynomial String ℤ) where
  var := MvPolynomial.X
  divide _ _ := 0
  divideAdd _ _ _ := (add_zero 0).symm

noncomputable def Expr.polynomial (e : Expr) : MvPolynomial String ℤ := polynomials.value e

section Homomorphism

open ArithEquiv.Expr

variable {A : Type u} {B : Type v} [CommSemiring A] [CommSemiring B]

theorem homValue {a : Arithmetic A} {b : Arithmetic B} (φ : A →+* B)
    (const : ∀ n, φ (a.const n) = b.const n) (var : ∀ name, φ (a.var name) = b.var name)
    {v : Vocabulary} {e : Expr} (noDiv : ¬v.div) (written : WrittenIn v e) :
    φ (a.value e) = b.value e := by
  induction e using Expr.byArgs with
  | const n => exact const n
  | var name => exact var name
  | neg arg ih => rw [a.valueNeg, b.valueNeg, map_mul, const, ih written.2]
  | bin op left right ihl ihr =>
    cases op with
    | add => rw [a.valueAdd, b.valueAdd, map_add, ihl written.1, ihr written.2]
    | sub =>
      rw [a.valueSub, b.valueSub, map_add, map_mul, const, ihl written.2.1, ihr written.2.2]
    | mul => rw [a.valueMul, b.valueMul, map_mul, ihl written.1, ihr written.2]
    | div => exact absurd written.1 noDiv
  | flat op first second rest ih =>
    have each := writtenFlat.1 written
    have values : (first :: second :: rest).map (φ ∘ a.value) =
        (first :: second :: rest).map b.value :=
      List.map_congr_left fun e mem => ih e mem (each e mem)
    rw [a.valueFlat, b.valueFlat, ← values, ← List.map_map]
    cases op with
    | add => exact map_list_sum φ _
    | mul => exact map_list_prod φ _

end Homomorphism

namespace Formal

abbrev Collected := MonoidAlgebra ℤ (Multiplicative (Multiset ℕ))

noncomputable def collect : Formal →+* Collected :=
  (MonoidAlgebra.lift ℕ Collected Monomial
    { toFun := fun m => MonoidAlgebra.single m.2 m.1
      map_one' := rfl
      map_mul' := fun m n => (MonoidAlgebra.single_mul_single m.2 n.2 m.1 n.1).symm }).toRingHom

theorem collectSingle (m : Monomial) :
    collect (MonoidAlgebra.single m 1) = MonoidAlgebra.single m.2 m.1 :=
  (MonoidAlgebra.lift_single _ _ _).trans (one_smul ℕ _)

structure Unopposed (ms : Multiset Monomial) : Prop where
  units : ∀ m ∈ ms, m.1 = 1 ∨ m.1 = -1
  apart : ∀ letters, (1, letters) ∈ ms → (-1, letters) ∉ ms

theorem collectedCoefficient {ms : Multiset Monomial} (units : ∀ m ∈ ms, m.1 = 1 ∨ m.1 = -1)
    (letters : Multiplicative (Multiset ℕ)) : (collect (gathered ms)).coeff letters =
      (ms.count (1, letters) : ℤ) - ms.count (-1, letters) := by
  induction ms using Multiset.induction_on with
  | empty => simp [gathered]
  | cons m ms ih =>
    have apart : collect (gathered (m ::ₘ ms)) =
        MonoidAlgebra.single m.2 m.1 + collect (gathered ms) := by
      rw [gathered, Multiset.map_cons, Multiset.sum_cons, map_add, collectSingle]
      rfl
    have rest := ih fun k mem => units k (Multiset.mem_cons_of_mem mem)
    obtain ⟨n, keys⟩ := m
    rw [apart, MonoidAlgebra.coeff_add, Finsupp.add_apply, rest, MonoidAlgebra.coeff_single,
      Finsupp.single_apply]
    simp only [Multiset.count_cons, Prod.mk.injEq]
    by_cases same : keys = letters
    · subst same
      rcases units (n, keys) (Multiset.mem_cons_self _ _) with one | minus
      · have plus : n = 1 := one
        subst plus
        simp
        ring
      · have less : n = -1 := minus
        subst less
        simp
        ring
    · simp [same, Ne.symm same]

theorem unopposedUnique {ms ns : Multiset Monomial} (onMs : Unopposed ms) (onNs : Unopposed ns)
    (same : collect (gathered ms) = collect (gathered ns)) : ms = ns := by
  have oneSided : ∀ {ks : Multiset Monomial}, Unopposed ks → ∀ letters,
      ks.count (1, letters) = 0 ∨ ks.count (-1, letters) = 0 := by
    intro ks unopposed letters
    by_cases mem : (1, letters) ∈ ks
    · exact .inr (Multiset.count_eq_zero.2 (unopposed.apart letters mem))
    · exact .inl (Multiset.count_eq_zero.2 mem)
  have none : ∀ {ks : Multiset Monomial}, Unopposed ks → ∀ {n letters}, n ≠ 1 → n ≠ -1 →
      ks.count (n, letters) = 0 := by
    intro ks unopposed n letters notOne notMinus
    refine Multiset.count_eq_zero.2 fun mem => ?_
    exact (unopposed.units _ mem).elim notOne notMinus
  refine Multiset.ext.2 ?_
  rintro ⟨n, letters⟩
  have coefficients := congrArg (fun x : Collected => x.coeff letters) same
  simp only [collectedCoefficient onMs.units, collectedCoefficient onNs.units] at coefficients
  have sidesM := oneSided onMs letters
  have sidesN := oneSided onNs letters
  by_cases one : n = 1
  · subst one
    omega
  · by_cases minus : n = -1
    · subst minus
      omega
    · rw [none onMs one minus, none onNs one minus]

noncomputable def letters : Arithmetic Collected where
  const := (Int.castRingHom Collected).toMonoidWithZeroHom
  var name := MonoidAlgebra.single (.ofAdd {code (.name name)}) 1
  divide _ _ := 0

end Formal

namespace Normalize

open ArithEquiv.Expr Formal

theorem collectTerm (n : ℤ) (keys : Multiset ℕ) :
    collect (term n keys) = MonoidAlgebra.single (.ofAdd keys) n :=
  collectSingle (n, .ofAdd keys)

theorem collectConst (n : ℤ) : collect (Formal.arithmetic.const n) = n := by
  by_cases zero : n = 0
  · rw [zero, constZero, map_zero, Int.cast_zero]
  · rw [constTerm zero, collectTerm]
    rfl

theorem collectFormal {v : Vocabulary} {e : Expr} (noDiv : ¬v.div) (written : WrittenIn v e) :
    collect (formal e) = letters.value e := by
  have names : ∀ name, collect (Formal.arithmetic.var name) = letters.var name :=
    fun name => collectTerm 1 {code (.name name)}
  exact homValue collect collectConst names noDiv written

theorem polynomialLetters {v : Vocabulary} {a b : Expr} (noDiv : ¬v.div) (onA : WrittenIn v a)
    (onB : WrittenIn v b) (same : a.polynomial = b.polynomial) :
    letters.value a = letters.value b := by
  have values : ∀ {e : Expr}, WrittenIn v e →
      MvPolynomial.eval₂Hom (Int.castRingHom Collected) letters.var e.polynomial =
        letters.value e := by
    intro e written
    rw [Expr.polynomial, ← polynomials.arithmeticValue]
    refine homValue _ (fun n => ?_) (fun name => ?_) noDiv written
    · exact map_intCast _ n
    · exact MvPolynomial.eval₂Hom_X' _ _ name
  rw [← values onA, same, values onB]

end Normalize

end ArithEquiv
