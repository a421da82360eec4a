import ArithEquiv.Proofs.ReducedTerms
import Mathlib.Algebra.MonoidAlgebra.Defs
import Mathlib.Data.Finsupp.Encodable

/-! Formal sums of monomials: an arithmetic in which constants multiply but do not add and a
quotient is a letter like a name. What it keeps of a tree is the sum of its terms, and of a term
its coefficient and its letters, so trees whose signs are in front and that have one value here
differ in order and grouping only. -/
namespace ArithEquiv

abbrev Monomial := ℤ × Multiplicative (Multiset ℕ)

abbrev Formal := MonoidAlgebra ℕ Monomial

namespace Formal

instance : Countable Formal := by
  have letters : Countable (Multiplicative (Multiset ℕ)) := Multiplicative.toAdd.injective.countable
  exact MonoidAlgebra.coeff_injective.countable

inductive Letter where
  | name (name : String)
  | quotient (left right : Formal)
  deriving Countable

noncomputable def code : Letter → ℕ := (Countable.exists_injective_nat Letter).choose

theorem codeInjective : Function.Injective code :=
  (Countable.exists_injective_nat Letter).choose_spec

noncomputable def term (n : ℤ) (letters : Multiset ℕ) : Formal :=
  MonoidAlgebra.single (n, .ofAdd letters) 1

theorem termInjective {m n : ℤ} {xs ys : Multiset ℕ} (same : term m xs = term n ys) :
    m = n ∧ xs = ys := by
  have coefficients := congrArg MonoidAlgebra.coeff same
  rw [term, term, MonoidAlgebra.coeff_single, MonoidAlgebra.coeff_single] at coefficients
  have keys := Finsupp.single_left_injective one_ne_zero coefficients
  exact ⟨congrArg Prod.fst keys, congrArg (fun m => m.2.toAdd) keys⟩

theorem termMul (m n : ℤ) (xs ys : Multiset ℕ) : term m xs * term n ys = term (m * n) (xs + ys) := by
  rw [term, term, MonoidAlgebra.single_mul_single, one_mul]
  rfl

noncomputable def arithmetic : Arithmetic Formal where
  const :=
    { toFun := fun n => if n = 0 then 0 else term n 0
      map_zero' := if_pos rfl
      map_one' := if_neg one_ne_zero
      map_mul' := by
        intro m n
        by_cases zeroM : m = 0
        · simp only [zeroM, zero_mul, if_true]
        · by_cases zeroN : n = 0
          · simp only [zeroN, mul_zero, if_true]
          · rw [if_neg zeroM, if_neg zeroN, if_neg (mul_ne_zero zeroM zeroN), termMul]
            rfl }
  var name := term 1 {code (.name name)}
  divide x y := term 1 {code (.quotient x y)}

theorem constZero : arithmetic.const 0 = 0 := map_zero _

theorem constTerm {n : ℤ} (some : n ≠ 0) : arithmetic.const n = term n 0 := if_neg some

noncomputable def gathered (ms : Multiset Monomial) : Formal :=
  (ms.map fun m => MonoidAlgebra.single m 1).sum

theorem gatheredCount (ms : Multiset Monomial) (m : Monomial) :
    (gathered ms).coeff m = ms.count m := by
  classical
  induction ms using Multiset.induction_on with
  | empty => rfl
  | cons k ms ih =>
    have apart : (gathered (k ::ₘ ms)).coeff m =
        (MonoidAlgebra.single k (1 : ℕ)).coeff m + (gathered ms).coeff m := by
      rw [gathered, Multiset.map_cons, Multiset.sum_cons]
      rfl
    rw [apart, ih, Multiset.count_cons, MonoidAlgebra.coeff_single, Finsupp.single_apply, add_comm]
    simp only [eq_comm]

theorem gatheredInjective {ms ns : Multiset Monomial} (same : gathered ms = gathered ns) :
    ms = ns := by
  classical
  refine Multiset.ext.2 fun m => ?_
  rw [← gatheredCount, same, gatheredCount]

structure Lettering where
  name : String → ℕ
  quotient : Formal → Formal → ℕ

namespace Lettering

noncomputable def arithmetic (l : Lettering) : Arithmetic Formal where
  const := Formal.arithmetic.const
  var name := term 1 {l.name name}
  divide x y := term 1 {l.quotient x y}

noncomputable def value (l : Lettering) (e : Expr) : Formal := l.arithmetic.value e

noncomputable def plain : Lettering where
  name name := code (.name name)
  quotient x y := code (.quotient x y)

structure Faithful (l : Lettering) (among : Expr → Prop) : Prop where
  names : Function.Injective l.name
  apart : ∀ name x y, l.name name ≠ l.quotient x y
  quotients : ∀ {a b c d : Expr}, among a → among b → among c → among d →
    l.quotient (l.value a) (l.value b) = l.quotient (l.value c) (l.value d) →
      l.value a = l.value c ∧ l.value b = l.value d
  parts : ∀ {e t : Expr}, among e → t ∈ e.children → among t

theorem plainFaithful : plain.Faithful fun _ => True where
  names _ _ same := Letter.name.inj (codeInjective same)
  apart _ _ _ same := by cases codeInjective same
  quotients _ _ _ _ same := Letter.quotient.inj (codeInjective same)
  parts _ _ := trivial

end Lettering

end Formal

namespace Normalize

open ArithEquiv.Expr Formal

noncomputable def formal (e : Expr) : Formal := Formal.arithmetic.value e

variable (l : Lettering)

def kindOfTerm (n : ℤ) (letters : Multiset ℕ) : Kind :=
  if letters = 0 then .constant
  else if n < 0 then .negation
  else if n = 1 ∧ letters.card = 1 then .atom
  else .product

theorem formalAtom {e : Expr} (atom : kind e = .atom) : ∃ letter, l.value e = term 1 {letter} := by
  rcases atomKind atom with ⟨name, rfl⟩ | ⟨left, right, rfl⟩
  · exact ⟨_, rfl⟩
  · exact ⟨_, rfl⟩

theorem formalAtoms {es : List Expr} (atoms : ∀ e ∈ es, kind e = .atom) :
    ∃ letters : List ℕ, es.map l.value = letters.map fun letter => term 1 {letter} := by
  induction es with
  | nil => exact ⟨[], rfl⟩
  | cons e rest ih =>
    obtain ⟨letter, one⟩ := formalAtom l (atoms e (by simp))
    obtain ⟨letters, more⟩ := ih fun t mem => atoms t (by simp [mem])
    exact ⟨letter :: letters, by rw [List.map_cons, one, more, List.map_cons]⟩

theorem lettersProduct (letters : List ℕ) :
    (letters.map fun letter => term 1 {letter}).prod = term 1 (letters : Multiset ℕ) := by
  induction letters with
  | nil => rfl
  | cons letter rest ih =>
    rw [List.map_cons, List.prod_cons, ih, termMul, one_mul]
    rfl

theorem signedNumbers {es : List Expr} (obeyed : Rules.signed.product (constants es)) :
    numbers es = [] ∨ ∃ n, 2 ≤ n ∧ numbers es = [n] := by
  obtain ⟨few, big⟩ := obeyed
  have members : ∀ n ∈ numbers es, 2 ≤ n := fun n mem => big n (Multiset.mem_coe.2 mem)
  have length : (numbers es).length ≤ 1 := few
  match found : numbers es with
  | [] => exact .inl rfl
  | [n] => exact .inr ⟨n, members n (by rw [found]; simp), rfl⟩
  | _ :: _ :: _ =>
    rw [found] at length
    simp only [List.length_cons] at length
    omega

theorem signedCoefficient {es : List Expr} (obeyed : Rules.signed.product (constants es)) :
    1 ≤ (numbers es).prod ∧ ((numbers es).prod = 1 → numbers es = []) := by
  rcases signedNumbers obeyed with none | ⟨n, big, one⟩
  · rw [none]
    exact ⟨le_refl 1, fun _ => rfl⟩
  · rw [one, List.prod_singleton]
    exact ⟨by omega, fun same => by omega⟩

theorem othersAtoms {es : List Expr} (factors : ∀ e ∈ es, kind e = .constant ∨ kind e = .atom) :
    ∀ e ∈ others es, kind e = .atom := by
  intro e mem
  obtain ⟨member, other⟩ := List.mem_filter.1 mem
  refine (factors e member).resolve_left fun constant => ?_
  obtain ⟨n, rfl⟩ := constantKind constant
  cases other

theorem formalProduct {first second : Expr} {rest : List Expr}
    (factors : ∀ e ∈ first :: second :: rest, kind e = .constant ∨ kind e = .atom)
    (obeyed : Rules.signed.product (constants (first :: second :: rest))) :
    ∃ letters : List ℕ,
      (others (first :: second :: rest)).map l.value = letters.map (fun letter => term 1 {letter}) ∧
      l.value (.flat .mul first second rest) =
        term (numbers (first :: second :: rest)).prod letters := by
  obtain ⟨letters, values⟩ := formalAtoms l (othersAtoms factors)
  have some : (numbers (first :: second :: rest)).prod ≠ 0 := by
    have atLeast := (signedCoefficient obeyed).1
    omega
  have combines : l.arithmetic.const (AssocOp.mul.total (numbers (first :: second :: rest))) =
      Arithmetic.combine .mul ((numbers (first :: second :: rest)).map l.arithmetic.const) :=
    productsCombine l.arithmetic _
  have split := operandsCombined l.arithmetic combines
  have coefficient : l.arithmetic.const (numbers (first :: second :: rest)).prod =
      term (numbers (first :: second :: rest)).prod 0 := constTerm some
  have product : Arithmetic.combine .mul ((others (first :: second :: rest)).map l.arithmetic.value) =
      term 1 letters := by
    refine Eq.trans ?_ (lettersProduct letters)
    exact congrArg List.prod values
  rw [totalMul, coefficient, product] at split
  refine ⟨letters, values, (l.arithmetic.valueFlat .mul first second rest).trans ?_⟩
  rw [split]
  refine (termMul _ _ _ _).trans ?_
  rw [mul_one, zero_add]

theorem shapedTerm {e : Expr} (shaped : Shaped .signed e) (notSum : kind e ≠ .sum)
    (some : e ≠ .const 0) : ∃ n letters, n ≠ 0 ∧ l.value e = term n letters ∧
      kind e = kindOfTerm n letters := by
  induction shaped with
  | const n =>
    have differs : n ≠ 0 := fun zero => some (congrArg Expr.const zero)
    exact ⟨n, 0, differs, constTerm differs, (if_pos rfl).symm⟩
  | var name =>
    refine ⟨1, {l.name name}, one_ne_zero, rfl, ?_⟩
    simp [kindOfTerm, kind]
  | @div left right _ _ _ _ _ =>
    refine ⟨1, {l.quotient (l.value left) (l.value right)}, one_ne_zero, rfl, ?_⟩
    simp [kindOfTerm, kind, kindOfBin]
  | @neg arg _ root inner ih =>
    have notSum' : kind arg ≠ .sum := by
      intro sum
      rcases root with h | h <;> cases h.symm.trans sum
    have some' : arg ≠ .const 0 := by
      rintro rfl
      rcases root with h | h <;> cases h
    obtain ⟨n, letters, differs, value, found⟩ := ih notSum' some'
    have solid : letters ≠ 0 := by
      rintro rfl
      rw [kindOfTerm, if_pos rfl] at found
      rcases root with h | h <;> cases found.symm.trans h
    have positive : 0 < n := by
      by_contra negative
      have below : n < 0 := by omega
      rw [kindOfTerm, if_neg solid, if_pos below] at found
      rcases root with h | h <;> cases found.symm.trans h
    refine ⟨-n, letters, by omega, ?_, ?_⟩
    · have signed : l.value (.neg arg) = Formal.arithmetic.const (-1) * l.value arg := rfl
      rw [signed, value, constTerm (by decide), termMul, neg_one_mul, zero_add]
    · rw [kindOfTerm, if_neg solid, if_pos (by omega)]
      rfl
  | @product first second rest factors obeyed solid _ _ =>
    obtain ⟨letters, values, value⟩ := formalProduct l factors obeyed
    obtain ⟨atLeast, one⟩ := signedCoefficient obeyed
    have count := congrArg List.length values
    rw [List.length_map, List.length_map] at count
    have some : (letters : Multiset ℕ) ≠ 0 := by
      intro none
      rw [(Multiset.coe_eq_zero _).1 none, List.length_nil, List.length_eq_zero_iff] at count
      obtain ⟨e, mem, atom⟩ := solid trivial
      have member : e ∈ others (first :: second :: rest) :=
        List.mem_filter.2 ⟨mem, by rw [constNone (by rw [atom]; decide)]; rfl⟩
      rw [count] at member
      cases member
    refine ⟨_, letters, by omega, value, ?_⟩
    rw [kindOfTerm, if_neg some, if_neg (by omega), if_neg]
    · rfl
    · rintro ⟨unit, single⟩
      rw [othersAll (one unit)] at count
      rw [Multiset.coe_card] at single
      simp only [List.length_cons] at count
      omega
  | sum _ _ _ => exact absurd rfl notSum

theorem formalTerms {es : List Expr} (each : ∀ e ∈ es, Shaped .signed e)
    (terms : ∀ e ∈ es, kind e ≠ .sum) (some : ∀ e ∈ es, e ≠ .const 0) :
    ∃ ms : List Monomial, es.map l.value = ms.map fun m => MonoidAlgebra.single m 1 := by
  induction es with
  | nil => exact ⟨[], rfl⟩
  | cons e rest ih =>
    obtain ⟨n, letters, _, value, _⟩ :=
      shapedTerm l (each e (by simp)) (terms e (by simp)) (some e (by simp))
    obtain ⟨ms, more⟩ := ih (fun t mem => each t (by simp [mem])) (fun t mem => terms t (by simp [mem]))
      fun t mem => some t (by simp [mem])
    exact ⟨(n, .ofAdd letters) :: ms, by rw [List.map_cons, value, more]; rfl⟩

theorem formalSum {first second : Expr} {rest : List Expr}
    (shaped : Shaped .signed (.flat .add first second rest)) :
    ∃ ms : List Monomial, (first :: second :: rest).map l.value =
        ms.map (fun m => MonoidAlgebra.single m 1) ∧
      l.value (.flat .add first second rest) = gathered ms := by
  cases shaped with
  | sum terms obeyed each =>
    obtain ⟨ms, values⟩ := formalTerms l each terms fun e mem zero => obeyed (by
      rw [zero] at mem
      exact constantsMem.2 mem)
    refine ⟨ms, values, (l.arithmetic.valueFlat .add first second rest).trans ?_⟩
    refine (congrArg List.sum values).trans ?_
    rw [gathered, Multiset.map_coe, Multiset.sum_coe]

theorem gatheredSingle (n : ℤ) (letters : Multiset ℕ) :
    gathered {(n, .ofAdd letters)} = term n letters := by
  rw [gathered, Multiset.map_singleton, Multiset.sum_singleton]
  rfl

theorem formalMonomials {e : Expr} (shaped : Shaped .signed e) : ∃ ms, l.value e = gathered ms ∧
    (e = .const 0 ∧ ms.card = 0 ∨ kind e ≠ .sum ∧ e ≠ .const 0 ∧ ms.card = 1 ∨
      kind e = .sum ∧ 2 ≤ ms.card) := by
  by_cases zero : e = .const 0
  · subst zero
    exact ⟨0, constZero, .inl ⟨rfl, rfl⟩⟩
  · by_cases sum : kind e = .sum
    · rcases sumKind sum with root | ⟨left, right, rfl⟩
      · cases shaped with
        | @sum first second rest terms obeyed each =>
          obtain ⟨ms, values, value⟩ := formalSum l (.sum terms obeyed each)
          have count := congrArg List.length values
          simp only [List.length_map, List.length_cons] at count
          exact ⟨ms, value, .inr (.inr ⟨sum, by rw [Multiset.coe_card]; omega⟩)⟩
        | _ => cases root
      · cases shaped
    · obtain ⟨n, letters, _, value, _⟩ := shapedTerm l shaped sum zero
      refine ⟨{(n, .ofAdd letters)}, value.trans (gatheredSingle n letters).symm, .inr (.inl ?_)⟩
      exact ⟨sum, zero, Multiset.card_singleton _⟩

theorem formalKinds {a b : Expr} (shapedA : Shaped .signed a) (shapedB : Shaped .signed b)
    (same : l.value a = l.value b) : kind a = kind b := by
  obtain ⟨ms, valueA, countA⟩ := formalMonomials l shapedA
  obtain ⟨ns, valueB, countB⟩ := formalMonomials l shapedB
  obtain rfl : ms = ns := gatheredInjective (valueA.symm.trans (same.trans valueB))
  rcases countA with ⟨rfl, _⟩ | ⟨termA, someA, _⟩ | ⟨sumA, _⟩ <;>
    rcases countB with ⟨rfl, _⟩ | ⟨termB, someB, _⟩ | ⟨sumB, _⟩ <;> first | omega | skip
  · rfl
  · obtain ⟨n, letters, _, value, found⟩ := shapedTerm l shapedA termA someA
    obtain ⟨n', letters', _, value', found'⟩ := shapedTerm l shapedB termB someB
    obtain ⟨rfl, rfl⟩ := termInjective (value.symm.trans (same.trans value'))
    exact found.trans found'.symm
  · exact sumA.trans sumB.symm

theorem constInjective {m n : Int} (same : Formal.arithmetic.const m = Formal.arithmetic.const n) :
    m = n := by
  have nonzero : ∀ {k : Int}, k ≠ 0 → Formal.arithmetic.const k ≠ 0 := by
    intro k some zero
    rw [constTerm some, term] at zero
    have one := congrArg (fun x : Formal => x.coeff (k, .ofAdd 0)) zero
    simp [MonoidAlgebra.coeff_single] at one
  by_cases zeroM : m = 0
  · by_contra differ
    rw [zeroM, constZero] at same
    exact nonzero (fun zeroN => differ (zeroM.trans zeroN.symm)) same.symm
  · by_cases zeroN : n = 0
    · rw [zeroN, constZero] at same
      exact absurd same (nonzero zeroM)
    · rw [constTerm zeroM, constTerm zeroN] at same
      exact (termInjective same).1

theorem flatRearranged {op : AssocOp} {x y x' y' : Expr} {xs xs' : List Expr}
    (operands : ∀ (A : Type) (i : Interpretation A), i.Commutative →
      ((x :: y :: xs).map (value i)).Perm ((x' :: y' :: xs').map (value i))) :
    Rearranged (.flat op x y xs) (.flat op x' y' xs') := by
  intro A i commutes
  refine WithOne.coe_injective ?_
  rw [totalFlat, totalFlat, Interpretation.totalPerm commutes op (operands A i commutes)]

theorem numbersAgree {es es' : List Expr} (obeyed : Rules.signed.product (constants es))
    (obeyed' : Rules.signed.product (constants es'))
    (same : (numbers es).prod = (numbers es').prod) : numbers es = numbers es' := by
  rcases signedNumbers obeyed with none | ⟨n, big, one⟩
  · rw [none, (signedCoefficient obeyed').2 (by rw [← same, none, List.prod_nil])]
  · rcases signedNumbers obeyed' with none' | ⟨n', _, one'⟩
    · rw [one, none', List.prod_singleton, List.prod_nil] at same
      omega
    · rw [one, one', List.prod_singleton, List.prod_singleton] at same
      rw [one, one', same]

section Chains

variable {x y x' y' : Expr} {xs xs' : List Expr}
  (alike : ∀ e ∈ x :: y :: xs, ∀ e' ∈ x' :: y' :: xs', l.value e = l.value e' → Rearranged e e')
include alike

theorem productRearranged
    (factors : ∀ e ∈ x :: y :: xs, kind e = .constant ∨ kind e = .atom)
    (factors' : ∀ e ∈ x' :: y' :: xs', kind e = .constant ∨ kind e = .atom)
    (obeyed : Rules.signed.product (constants (x :: y :: xs)))
    (obeyed' : Rules.signed.product (constants (x' :: y' :: xs')))
    (same : l.value (.flat .mul x y xs) = l.value (.flat .mul x' y' xs')) :
    Rearranged (.flat .mul x y xs) (.flat .mul x' y' xs') := by
  obtain ⟨letters, values, value⟩ := formalProduct l factors obeyed
  obtain ⟨letters', values', value'⟩ := formalProduct l factors' obeyed'
  obtain ⟨coefficients, codes⟩ := termInjective (value.symm.trans (same.trans value'))
  have sameNumbers := numbersAgree obeyed obeyed' coefficients
  have perm : ((others (x :: y :: xs)).map l.value).Perm ((others (x' :: y' :: xs')).map l.value) := by
    rw [values, values']
    exact (Multiset.coe_eq_coe.1 codes).map _
  refine flatRearranged fun A i commutes => ?_
  have kept := permDetermined (g := Expr.value i) (h := Expr.value i) perm
    fun e mem e' mem' unsigned =>
      alike e (List.mem_filter.1 mem).1 e' (List.mem_filter.1 mem').1 unsigned A i commutes
  refine ((constsApart _).map _).trans (List.Perm.trans ?_ ((constsApart _).map _).symm)
  rw [sameNumbers, List.map_append, List.map_append]
  exact kept.append_left _

theorem sumRearranged (shaped : Shaped .signed (.flat .add x y xs))
    (shaped' : Shaped .signed (.flat .add x' y' xs'))
    (same : l.value (.flat .add x y xs) = l.value (.flat .add x' y' xs')) :
    Rearranged (.flat .add x y xs) (.flat .add x' y' xs') := by
  obtain ⟨ms, values, value⟩ := formalSum l shaped
  obtain ⟨ns, values', value'⟩ := formalSum l shaped'
  have monomials := gatheredInjective (value.symm.trans (same.trans value'))
  have perm : ((x :: y :: xs).map l.value).Perm ((x' :: y' :: xs').map l.value) := by
    rw [values, values']
    exact (Multiset.coe_eq_coe.1 monomials).map _
  refine flatRearranged fun A i commutes => permDetermined perm ?_
  exact fun e mem e' mem' unsigned => alike e mem e' mem' unsigned A i commutes

end Chains

theorem valueRearranged {l : Lettering} {among : Expr → Prop} (faithful : l.Faithful among)
    {a b : Expr} (shapedA : Shaped .signed a) (shapedB : Shaped .signed b) (amongA : among a)
    (amongB : among b) (same : l.value a = l.value b) : Rearranged a b := by
  -- The value fixes the kind of the root, so `b` has the root of `a` in every case.
  have kinds := formalKinds l shapedA shapedB same
  have operand : ∀ {op x y xs t}, among (.flat op x y xs) → t ∈ x :: y :: xs → among t :=
    fun whole mem => faithful.parts whole mem
  induction shapedA generalizing b with
  | const m =>
    obtain ⟨n, rfl⟩ := constantKind kinds.symm
    obtain rfl := constInjective same
    exact fun _ _ _ => rfl
  | var name =>
    rcases atomKind kinds.symm with ⟨name', rfl⟩ | ⟨left, right, rfl⟩
    · obtain rfl := faithful.names (Multiset.singleton_inj.1 (termInjective same).2)
      exact fun _ _ _ => rfl
    · exact absurd (Multiset.singleton_inj.1 (termInjective same).2) (faithful.apart _ _ _)
  | @div left right _ onLeft onRight ihl ihr =>
    rcases atomKind kinds.symm with ⟨name', rfl⟩ | ⟨left', right', rfl⟩
    · exact absurd (Multiset.singleton_inj.1 (termInjective same).2).symm (faithful.apart _ _ _)
    · have inLeft : among left := faithful.parts amongA List.mem_cons_self
      have inRight : among right :=
        faithful.parts amongA (List.mem_cons_of_mem _ List.mem_cons_self)
      have inLeft' : among left' := faithful.parts amongB List.mem_cons_self
      have inRight' : among right' :=
        faithful.parts amongB (List.mem_cons_of_mem _ List.mem_cons_self)
      obtain ⟨sameLeft, sameRight⟩ := faithful.quotients inLeft inRight inLeft' inRight'
        (Multiset.singleton_inj.1 (termInjective same).2)
      cases shapedB with
      | div _ onLeft' onRight' =>
        have lefts := ihl onLeft' inLeft inLeft' sameLeft (formalKinds l onLeft onLeft' sameLeft)
        have rights := ihr onRight' inRight inRight' sameRight
          (formalKinds l onRight onRight' sameRight)
        exact fun A i commutes => congrArg₂ (i.bin .div) (lefts A i commutes) (rights A i commutes)
  | @neg arg _ _ inner ih =>
    cases shapedB with
    | @neg arg' _ _ inner' =>
      have unsigned : l.value arg = l.value arg' := by
        have again := congrArg (l.arithmetic.const (-1) * ·) same
        have square := l.arithmetic.signSquare
        simp only [Lettering.value, Arithmetic.valueNeg, ← mul_assoc, square, one_mul] at again
        exact again
      have args := ih inner' (faithful.parts amongA List.mem_cons_self)
        (faithful.parts amongB List.mem_cons_self) unsigned (formalKinds l inner inner' unsigned)
      exact fun A i commutes => congrArg i.neg (args A i commutes)
    | _ => cases kinds
  | @product x y xs factors obeyed _ each ih =>
    have root := productKind kinds.symm
    cases shapedB with
    | @product x' y' xs' factors' obeyed' _ each' =>
      refine productRearranged l (fun e mem e' mem' unsigned => ?_) factors factors' obeyed obeyed' same
      exact ih e mem (each' e' mem') (operand amongA mem) (operand amongB mem') unsigned
        (formalKinds l (each e mem) (each' e' mem') unsigned)
    | sum => cases root
    | _ => cases kinds
  | @sum x y xs terms obeyed each ih =>
    cases shapedB with
    | @sum x' y' xs' terms' obeyed' each' =>
      refine sumRearranged l (fun e mem e' mem' unsigned => ?_) (.sum terms obeyed each)
        (.sum terms' obeyed' each') same
      exact ih e mem (each' e' mem') (operand amongA mem) (operand amongB mem') unsigned
        (formalKinds l (each e mem) (each' e' mem') unsigned)
    | _ => cases kinds

theorem formalRearranged {a b : Expr} (shapedA : Shaped .signed a) (shapedB : Shaped .signed b)
    (same : formal a = formal b) : Rearranged a b :=
  valueRearranged Lettering.plainFaithful shapedA shapedB trivial trivial same

end Normalize

end ArithEquiv
