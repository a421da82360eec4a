import ArithEquiv.Equivalence
import ArithEquiv.Proofs.Cancellation
import Mathlib.Data.Int.Cast.Lemmas

/-! Every pass keeps the value of a tree, and so does the normal form, in every commutative ring
with a quotient that is additive in its numerator. Nothing more is asked of a quotient: dividing
by zero gives some value too. The order of operands is never looked at, so the hash of nodes may
be any function. -/
namespace ArithEquiv

universe u

structure Meaning (R : Type u) [CommRing R] where
  var : String → R
  divide : R → R → R
  divideAdd : ∀ x y z : R, divide (x + y) z = divide x z + divide y z

namespace Meaning

variable {R : Type u} [CommRing R] (m : Meaning R)

def interpretation : Interpretation R where
  const n := n
  var := m.var
  neg x := -x
  bin
    | .add => fun x y => x + y
    | .sub => fun x y => x - y
    | .mul => fun x y => x * y
    | .div => m.divide
  assoc
    | .add => add_assoc
    | .mul => mul_assoc

def value (e : Expr) : R := e.value m.interpretation

def arithmetic : Arithmetic R where
  const := (Int.castRingHom R).toMonoidWithZeroHom
  var := m.var
  divide := m.divide

theorem exact : m.arithmetic.Exact where
  constAdd := Int.cast_add
  divideAdd := m.divideAdd

theorem interpretationEq : m.arithmetic.interpretation = m.interpretation := by
  have sign : ((-1 : Int) : R) = -1 := by rw [Int.cast_neg, Int.cast_one]
  have neg : ∀ x : R, ((-1 : Int) : R) * x = -x := fun x => by rw [sign, neg_one_mul]
  have sub : ∀ x y : R, x + ((-1 : Int) : R) * y = x - y := fun x y => by
    rw [neg, sub_eq_add_neg]
  unfold Arithmetic.interpretation interpretation
  congr 1
  · exact funext neg
  · funext op
    cases op with
    | sub => exact funext fun x => funext (sub x)
    | _ => rfl

theorem arithmeticValue (e : Expr) : m.arithmetic.value e = m.value e := by
  rw [Arithmetic.value, interpretationEq]
  rfl

theorem valueFlat (op : AssocOp) (first second : Expr) (rest : List Expr) :
    m.value (.flat op first second rest) = match op with
      | .add => ((first :: second :: rest).map m.value).sum
      | .mul => ((first :: second :: rest).map m.value).prod := by
  have same := m.arithmetic.valueFlat op first second rest
  rw [arithmeticValue, funext m.arithmeticValue] at same
  cases op <;> exact same

end Meaning

namespace Normalize

open Arithmetic

section Exact

variable {A : Type u} [CommSemiring A] {a : Arithmetic A} {settings : Settings} {e r : Expr}

theorem combinesAll (exact : a.Exact) (op : AssocOp) : Combines a op := by
  cases op with
  | add => exact sumsCombine exact
  | mul => exact productsCombine a

theorem foldConstantsValue (exact : a.Exact) (run : foldConstants settings e = .ok r) :
    a.value r = a.value e := by
  refine (fixedPointRelated a.interpretation.compatibleEq (fun stepped => ?_) run).symm
  refine a.interpretation.compatibleEq.bottomUpM (fun {e r} worked => ?_) stepped
  cases e with
  | flat op first second rest =>
    refine (a.valueFlat op first second rest).trans ?_
    exact foldConstantsNodeValue a (foldConstantsNodeOk worked) (combinesAll exact op _)
  | _ => cases worked; rfl

theorem constToOnesValue (exact : a.Exact) (run : constToOnes settings e = .ok r) :
    a.value r = a.value e :=
  (a.interpretation.compatibleEq.bottomUpM (constToOnesNodeValue exact) run).symm

theorem foldedValue (exact : a.Exact) (run : folded settings e = .ok r) :
    a.value r = a.value e := by
  unfold folded at run
  split at run
  · exact foldConstantsValue exact run
  · cases run
    rfl

theorem restructuredValue (exact : a.Exact) (run : restructured settings e = .ok r) :
    a.value r = a.value e := by
  obtain ⟨flat, flattened, run⟩ := bindOk.1 run
  obtain ⟨combined, folded, run⟩ := bindOk.1 run
  obtain ⟨ordered, sorted, last⟩ := bindOk.1 run
  calc a.value r = a.value ordered := unflattenValue _ last
    _ = a.value combined := orderOperandsValue a.commutative sorted
    _ = a.value flat := foldedValue exact folded
    _ = a.value e := flattenValue _ flattened

theorem distributedOnceValue (exact : a.Exact) (run : distributedOnce settings e = .ok r) :
    a.value r = a.value e := by
  obtain ⟨chains, unflattened, run⟩ := bindOk.1 run
  obtain ⟨crossed, multiplied, last⟩ := bindOk.1 run
  have crossing : a.value chains = a.value crossed :=
    a.interpretation.compatibleEq.bottomUpM
      (fun worked => distributeNodeValue a worked fun _ _ _ _ => exact.divideAdditive) multiplied
  calc a.value r = a.value crossed := restructuredValue exact last
    _ = a.value chains := crossing.symm
    _ = a.value e := unflattenValue _ unflattened

theorem distributedValue (exact : a.Exact) (run : distributed settings e = .ok r) :
    a.value r = a.value e :=
  (fixedPointRelated a.interpretation.compatibleEq
    (fun stepped => (distributedOnceValue exact stepped).symm) run).symm

theorem cancelOppositesKeeps (opposite : ∀ x, x + a.const (-1) * x = 0)
    (run : cancelOpposites settings e = .ok r) : a.value r = a.value e := by
  obtain ⟨flat, flattened, run⟩ := bindOk.1 run
  refine Eq.trans (Eq.symm ?_) (flattenValue a.interpretation flattened)
  refine fixedPointRelated a.interpretation.compatibleEq (fun {b c} stepped => ?_) run
  cases stepped
  exact a.interpretation.compatibleEq.bottomUp (cancelNodeValue opposite) b

theorem cancelOppositesValue (exact : a.Exact) (run : cancelOpposites settings e = .ok r) :
    a.value r = a.value e :=
  cancelOppositesKeeps exact.opposite run

theorem preparedValue (exact : a.Exact) (run : prepared settings e = .ok r) :
    a.value r = a.value e := by
  unfold prepared at run
  split at run
  · cases run
    rw [negToMulValue, subToAddValue]
  · obtain ⟨ones, written, last⟩ := bindOk.1 run
    cases last
    rw [negToMulValue, constToOnesValue exact written, subToAddValue]

theorem signedProducts (run : signed settings e = .ok r) : ∃ products,
    distributed settings e = .ok products ∧
      ∀ {B : Type u} [CommSemiring B] (b : Arithmetic B), b.value r = b.value products := by
  obtain ⟨products, multiplied, run⟩ := bindOk.1 run
  obtain ⟨signs, reduced, run⟩ := bindOk.1 run
  obtain ⟨units, cleaned, last⟩ := bindOk.1 run
  refine ⟨products, multiplied, fun b => ?_⟩
  rw [takeSignsValue b last, cleanUnitsValue b cleaned, cleanSignsValue b reduced]

theorem signedValue (exact : a.Exact) (run : signed settings e = .ok r) :
    a.value r = a.value e := by
  obtain ⟨products, multiplied, kept⟩ := signedProducts run
  rw [kept a, distributedValue exact multiplied]

theorem normalizedValue (exact : a.Exact) (run : normalized settings e = .ok r) :
    a.value r = a.value e := by
  obtain ⟨start, begun, run⟩ := bindOk.1 run
  obtain ⟨terms, taken, run⟩ := bindOk.1 run
  obtain ⟨left, cancelled, last⟩ := bindOk.1 run
  rw [restructuredValue exact last, cancelOppositesValue exact cancelled, signedValue exact taken,
    preparedValue exact begun]

end Exact

@[reducible]
def KeepsValues (f : Settings → Expr → Except Fault Expr) : Prop :=
  ∀ {A : Type u} [CommSemiring A] {a : Arithmetic A}, a.Exact →
    ∀ {settings e r}, f settings e = .ok r → a.value r = a.value e

theorem passKeepsValues {pass : Pass} (member : pass ∈ Pass.all) :
    ∃ f, KeepsValues.{u} f ∧ ∀ settings e, (pass.run settings e).Gives (f settings e) := by
  have quiet : ∀ {name : String} {f : Settings → Expr → Except Fault Expr}, KeepsValues.{u} f →
      ∃ g, KeepsValues.{u} g ∧
        ∀ settings e, ((Pass.quiet name f).run settings e).Gives (g settings e) :=
    fun {name f} keeps => ⟨f, keeps, quietGives name f⟩
  have always : ∀ {name : String} {f : Expr → Expr},
      (∀ {A : Type u} [CommSemiring A] (a : Arithmetic A) e, a.value (f e) = a.value e) →
      ∃ g, KeepsValues.{u} g ∧
        ∀ settings e, ((Pass.always name f).run settings e).Gives (g settings e) :=
    fun {name f} keeps => quiet fun _ _ _ _ run => by cases run; exact keeps _ _
  simp only [Pass.all, List.mem_cons, List.not_mem_nil, or_false] at member
  rcases member with rfl | rfl | rfl | rfl | rfl | rfl | rfl | rfl | rfl | rfl | rfl | rfl | rfl |
    rfl | rfl
  · exact quiet fun _ _ _ _ run => flattenValue _ run
  · exact quiet fun _ _ _ _ run => unflattenValue _ run
  · exact quiet fun _ _ _ _ run => orderSumsValue (Arithmetic.commutative _) run
  · exact quiet fun _ _ _ _ run => orderProductsValue (Arithmetic.commutative _) run
  · exact quiet fun _ _ _ _ run => orderOperandsValue (Arithmetic.commutative _) run
  · exact quiet fun exact _ _ _ run => foldConstantsValue exact run
  · exact ⟨restructured, fun exact _ _ _ run => restructuredValue exact run, restructureGives⟩
  · exact always subToAddValue
  · exact quiet fun exact _ _ _ run => constToOnesValue exact run
  · exact always negToMulValue
  · exact ⟨distributed, fun exact _ _ _ run => distributedValue exact run, distributeGives⟩
  · exact quiet fun _ _ _ _ run => cleanUnitsValue _ run
  · exact quiet fun _ _ _ _ run => cleanSignsValue _ run
  · exact quiet fun _ _ _ _ run => takeSignsValue _ run
  · exact quiet fun exact _ _ _ run => cancelOppositesValue exact run

theorem passSound {pass : Pass} (member : pass ∈ Pass.all) (settings : Settings)
    (journal : Journal) {e r : Expr} (run : (pass.run settings e journal).1 = .ok r)
    {R : Type u} [CommRing R] (m : Meaning R) : m.value r = m.value e := by
  obtain ⟨f, keeps, gives⟩ := passKeepsValues.{u} member
  rw [gives settings e journal] at run
  have same := keeps m.exact run
  rwa [m.arithmeticValue, m.arithmeticValue] at same

def tripling : Meaning Int where
  var name := name.length
  divide x _ := 3 * x
  divideAdd x y _ := mul_add 3 x y

def flatQuotient : Expr :=
  .flat .mul (.bin .div (.bin .sub (.var "x") (.neg (.var "y"))) (.const 0)) (.const (-2))
    [.const 3]

def quotientTerms : Expr :=
  .bin .sub (.bin .mul (.const (-6)) (.bin .div (.var "x") (.const 0)))
    (.bin .mul (.bin .div (.neg (.var "y")) (.const 0)) (.const (-6)))

theorem passSoundOverZero :
    Pass.distribute ∈ Pass.all ∧ (Pass.distribute.run {} flatQuotient {}).1 = .ok quotientTerms ∧
      tripling.value quotientTerms = tripling.value flatQuotient := by
  have member : Pass.distribute ∈ Pass.all := by
    simp [Pass.all]
  have run : (Pass.distribute.run {} flatQuotient {}).1 = .ok quotientTerms := by
    rw [Node.digestEq]
    decide +kernel
  exact ⟨member, run, passSound member {} {} run tripling⟩

end Normalize

theorem equivalentGives (settings : Settings) (first second : String) :
    (equivalent settings first second).Gives (do
      let a ← Parse.ofSource first
      let b ← Parse.ofSource second
      let normalA ← Normalize.normalized settings a
      let normalB ← Normalize.normalized settings b
      pure (decide (normalA = normalB))) := by
  refine Traced.givesBind (Traced.givesOfExcept _) fun a => ?_
  refine Traced.givesBind (Traced.givesOfExcept _) fun b => ?_
  refine Traced.givesBind (Normalize.normalFormGives settings a) fun normalA => ?_
  exact Traced.givesBind (Normalize.normalFormGives settings b) fun _ => Traced.givesPure _

theorem equivalentOk {settings : Settings} {journal : Journal} {first second : String}
    {verdict : Bool} (run : (equivalent settings first second journal).1 = .ok verdict) :
    ∃ a b, Parse.ofSource first = .ok a ∧ Parse.ofSource second = .ok b ∧
      ∃ r s, Normalize.normalized settings a = .ok r ∧ Normalize.normalized settings b = .ok s ∧
        verdict = decide (r = s) := by
  rw [equivalentGives settings first second journal] at run
  obtain ⟨a, readFirst, run⟩ := bindOk.1 run
  obtain ⟨b, readSecond, run⟩ := bindOk.1 run
  obtain ⟨r, runA, run⟩ := bindOk.1 run
  obtain ⟨s, runB, run⟩ := bindOk.1 run
  exact ⟨a, b, readFirst, readSecond, r, s, runA, runB, (Except.ok.inj run).symm⟩

theorem equivalentSound (settings : Settings) (journal : Journal) {first second : String}
    (verdict : (equivalent settings first second journal).1 = .ok true) :
    ∃ a b, Parse.ofSource first = .ok a ∧ Parse.ofSource second = .ok b ∧
      ∀ (R : Type u) [CommRing R] (m : Meaning R), m.value a = m.value b := by
  obtain ⟨a, b, readFirst, readSecond, r, s, runA, runB, same⟩ := equivalentOk verdict
  obtain rfl := of_decide_eq_true same.symm
  refine ⟨a, b, readFirst, readSecond, fun R _ m => ?_⟩
  have valueA := Normalize.normalizedValue m.exact runA
  have valueB := Normalize.normalizedValue m.exact runB
  rw [m.arithmeticValue, m.arithmeticValue] at valueA valueB
  rw [← valueA, ← valueB]

theorem equivalentSoundOverZero :
    (equivalent {} "(x - y) / 0" "-y / 0 + x / 0" {}).1 = .ok true ∧
      ∃ a b, Parse.ofSource "(x - y) / 0" = .ok a ∧ Parse.ofSource "-y / 0 + x / 0" = .ok b ∧
        ∀ (R : Type) [CommRing R] (m : Meaning R), m.value a = m.value b := by
  have verdict : (equivalent {} "(x - y) / 0" "-y / 0 + x / 0" {}).1 = .ok true := by
    rw [Node.digestEq]
    decide +kernel
  exact ⟨verdict, equivalentSound {} {} verdict⟩

end ArithEquiv
