import ArithEquiv.Proofs.Polynomials
import ArithEquiv.Proofs.Uncancelled

/-! Signed trees whose constants are zero, one and minus one. A term then is its letters or their
opposite, and a sum in which no two terms are opposite has a value that combining terms loses
nothing of. -/
namespace ArithEquiv

def Vocabulary.OnlyUnits (v : Vocabulary) : Prop := ∀ n, v.const n → n = 0 ∨ n = 1 ∨ n = -1

namespace Normalize

open ArithEquiv.Expr Formal

section Terms

variable (l : Lettering) {v : Vocabulary} {e u : Expr} {first second : Expr} {rest : List Expr}

theorem unitFactors (units : v.OnlyUnits)
    (shaped : Shaped .signed (.flat .mul first second rest))
    (written : WrittenIn v (.flat .mul first second rest)) :
    ∀ e ∈ first :: second :: rest, kind e = .atom := by
  intro e mem
  cases shaped with
  | product factors obeyed _ _ =>
    refine (factors e mem).resolve_left fun constant => ?_
    obtain ⟨n, rfl⟩ := constantKind constant
    have big := obeyed.2 n (constantsMem.2 mem)
    have unit := units n (writtenFlat.1 written _ mem)
    omega

theorem positiveUnit (units : v.OnlyUnits) (shaped : Shaped .signed e)
    (written : WrittenIn v e) (root : kind e = .atom ∨ kind e = .product) :
    ∃ keys, l.value e = term 1 keys := by
  rcases root with atom | product
  · obtain ⟨letter, value⟩ := formalAtom l atom
    exact ⟨_, value⟩
  · have found := productKind product
    cases shaped with
    | @product first second rest factors obeyed solid each =>
      have atoms := unitFactors units (.product factors obeyed solid each) written
      obtain ⟨keys, _, value⟩ := formalProduct l factors obeyed
      have none : numbers (first :: second :: rest) = [] :=
        List.filterMap_eq_nil_iff.2 fun t mem => constNone (by rw [atoms t mem]; decide)
      rw [none] at value
      exact ⟨keys, value⟩
    | sum => cases found
    | _ => cases found

theorem negUnit {keys : Multiset ℕ} (value : l.value e = term 1 keys) :
    l.value (.neg e) = term (-1) keys := by
  have signed : l.value (.neg e) = Formal.arithmetic.const (-1) * l.value e := rfl
  rw [signed, value, constTerm (by decide), termMul, zero_add]
  rfl

theorem unitTerm (units : v.OnlyUnits) (shaped : Shaped .signed e) (written : WrittenIn v e)
    (notSum : kind e ≠ .sum) (some : e ≠ .const 0) : ∃ n keys, (n = 1 ∨ n = -1) ∧
      l.value e = term n keys ∧ kind e = kindOfTerm n keys := by
  obtain ⟨n, keys, differs, value, found⟩ := shapedTerm l shaped notSum some
  refine ⟨n, keys, ?_, value, found⟩
  have positive : kind e = .atom ∨ kind e = .product → n = 1 := by
    intro root
    obtain ⟨keys', one⟩ := positiveUnit l units shaped written root
    exact (termInjective (one.symm.trans value)).1.symm
  cases e with
  | const m =>
    have unit := units m written
    have nonzero : m ≠ 0 := fun zero => some (congrArg Expr.const zero)
    have same := (termInjective ((constTerm nonzero).symm.trans value)).1
    omega
  | neg arg =>
    cases shaped with
    | neg _ root inner =>
      obtain ⟨keys', one⟩ := positiveUnit l units inner written.2 root
      exact .inr (termInjective ((negUnit l one).symm.trans value)).1.symm
  | var name => exact .inl (positive (.inl rfl))
  | bin op left right =>
    cases op with
    | div => exact .inl (positive (.inl rfl))
    | _ => cases shaped
  | flat op first second rest =>
    cases op with
    | add => exact absurd rfl notSum
    | mul => exact .inl (positive (.inr rfl))

theorem plusReading (root : kind e = .atom ∨ kind e = .product) : Signed.ofExpr e = .plus e := by
  cases e with
  | const n => rcases root with h | h <;> cases h
  | neg arg => rcases root with h | h <;> cases h
  | _ => rfl

theorem oppositeTerms (units : v.OnlyUnits) (shaped : Shaped .signed e)
    (shaped' : Shaped .signed u) (written : WrittenIn v e) (written' : WrittenIn v u)
    (term : kind e ≠ .sum) (term' : kind u ≠ .sum) (some : e ≠ .const 0) (some' : u ≠ .const 0)
    {keys : Multiset ℕ} (one : l.value e = Formal.term 1 keys)
    (minus : l.value u = Formal.term (-1) keys) :
    e = .const 1 ∧ u = .const (-1) ∨ (kind e = .atom ∨ kind e = .product) ∧
      ∃ arg, u = .neg arg ∧ (kind arg = .atom ∨ kind arg = .product) ∧
        l.value e = l.value arg := by
  obtain ⟨_, _, _, value, found⟩ := unitTerm l units shaped written term some
  obtain ⟨rfl, rfl⟩ := termInjective (one.symm.trans value)
  obtain ⟨_, _, _, value', found'⟩ := unitTerm l units shaped' written' term' some'
  obtain ⟨rfl, rfl⟩ := termInjective (minus.symm.trans value')
  by_cases none : keys = 0
  · subst none
    rw [kindOfTerm, if_pos rfl] at found found'
    obtain ⟨m, rfl⟩ := constantKind found
    obtain ⟨n, rfl⟩ := constantKind found'
    obtain rfl := constInjective (one.trans (constTerm one_ne_zero).symm)
    obtain rfl := constInjective (minus.trans (constTerm (by decide)).symm)
    exact .inl ⟨rfl, rfl⟩
  · rw [kindOfTerm, if_neg none, if_neg (by decide)] at found
    rw [kindOfTerm, if_neg none, if_pos (by decide)] at found'
    have root : kind e = .atom ∨ kind e = .product := by
      split at found
      · exact .inl found
      · exact .inr found
    cases shaped' with
    | @neg arg _ root' inner =>
      obtain ⟨_, unsigned⟩ := positiveUnit l units inner written'.2 root'
      obtain rfl := (termInjective ((negUnit l unsigned).symm.trans minus)).2
      exact .inr ⟨root, arg, rfl, root', one.trans unsigned.symm⟩
    | _ => cases found'

theorem unopposedSingle {n : ℤ} {keys : Multiset ℕ} (unit : n = 1 ∨ n = -1) :
    Unopposed {(n, .ofAdd keys)} where
  units m mem := by rwa [Multiset.mem_singleton.1 mem]
  apart letters mem opposite := by
    have plus := congrArg Prod.fst (Multiset.mem_singleton.1 mem)
    have minus := congrArg Prod.fst (Multiset.mem_singleton.1 opposite)
    simp only at plus minus
    omega

theorem stableUnopposed (units : v.OnlyUnits) (shaped : Shaped .signed e)
    (written : WrittenIn v e) (stable : e.bottomUp cancelNode = e)
    (equal : ∀ {first second rest}, e = .flat .add first second rest →
      ∀ t ∈ first :: second :: rest, ∀ arg, .neg arg ∈ first :: second :: rest →
        (kind t = .atom ∨ kind t = .product) → (kind arg = .atom ∨ kind arg = .product) →
          l.value t = l.value arg → t = arg) :
    ∃ ms, l.value e = gathered ms ∧ Unopposed ms := by
  by_cases zero : e = .const 0
  · subst zero
    exact ⟨0, constZero, ⟨by simp, by simp⟩⟩
  by_cases sum : kind e = .sum
  · cases shaped with
    | @sum first second rest terms obeyed each =>
      have some : ∀ t ∈ first :: second :: rest, t ≠ .const 0 := by
        rintro t mem rfl
        exact obeyed (constantsMem.2 mem)
      have known := writtenFlat.1 written
      obtain ⟨ms, values, value⟩ := formalSum l (.sum terms obeyed each)
      have came : ∀ {n letters}, (n, letters) ∈ ms → ∃ t ∈ first :: second :: rest,
          l.value t = Formal.term n letters.toAdd := by
        intro n letters mem
        have member : MonoidAlgebra.single (n, letters) 1 ∈ (first :: second :: rest).map l.value := by
          rw [values]
          exact List.mem_map_of_mem mem
        obtain ⟨t, found, same⟩ := List.mem_map.1 member
        exact ⟨t, found, same⟩
      refine ⟨ms, value, ⟨?_, ?_⟩⟩
      · rintro ⟨n, letters⟩ mem
        obtain ⟨t, found, same⟩ := came (Multiset.mem_coe.1 mem)
        obtain ⟨m, keys, unit, value', _⟩ :=
          unitTerm l units (each t found) (known t found) (terms t found) (some t found)
        have coefficients := (termInjective (same.symm.trans value')).1
        rwa [← coefficients] at unit
      · intro letters mem opposite
        obtain ⟨t, found, one⟩ := came (Multiset.mem_coe.1 mem)
        obtain ⟨u, found', minus⟩ := came (Multiset.mem_coe.1 opposite)
        have none : ∀ s, Signed.minus s ∈ (first :: second :: rest).map Signed.ofExpr →
            Signed.plus s ∉ (first :: second :: rest).map Signed.ofExpr :=
          fun _ => noOpposites (cancelledAll stable)
        rcases oppositeTerms l units (each t found) (each u found') (known t found)
          (known u found') (terms t found) (terms u found') (some t found) (some u found') one minus
          with ⟨rfl, rfl⟩ | ⟨root, arg, rfl, root', same⟩
        · exact none (.const 1) (List.mem_map_of_mem found') (List.mem_map_of_mem found)
        · obtain rfl := equal rfl t found arg found' root root' same
          refine none t (List.mem_map_of_mem found') ?_
          rw [← plusReading root]
          exact List.mem_map_of_mem found
    | _ => cases sum
  · obtain ⟨n, keys, unit, value, _⟩ := unitTerm l units shaped written sum zero
    exact ⟨_, value.trans (gatheredSingle n keys).symm, unopposedSingle unit⟩

end Terms

end Normalize

end ArithEquiv
