import ArithEquiv.Proofs.FormalSums

/-! The shape of a normal form. Where constants are combined a sum has at most one of them, so to
combine them again changes no formal value, and a tree of this shape that is restructured comes
out with its terms in order and is otherwise the same. -/
namespace ArithEquiv.Normalize

open ArithEquiv.Expr Formal

theorem atMostOne {m : Multiset Int} (few : m.card ≤ 1) : m = 0 ∨ ∃ n, m = {n} := by
  rcases Nat.le_one_iff_eq_zero_or_eq_one.1 few with none | one
  · exact .inl (Multiset.card_eq_zero.1 none)
  · exact .inr (Multiset.card_eq_one.1 one)

theorem Shaped.mono {rules rules' : Rules} {e : Expr} (shaped : Shaped rules e)
    (negation : rules.negation → rules'.negation)
    (product : ∀ m, rules.product m → rules'.product m) (sum : ∀ m, rules.sum m → rules'.sum m)
    (solid : rules'.solid → rules.solid) : Shaped rules' e :=
  shaped.obeying (writtenObeys (writtenAny e)) negation (fun m obeyed _ => product m obeyed)
    (fun m obeyed _ => sum m obeyed) solid

def Rules.normal (settings : Settings) : Rules where
  product := Rules.signed.product
  sum m := 0 ∉ m ∧ (settings.constants = .fold → m.card ≤ 1)
  negation := True
  solid := True
  productPart := Rules.signed.productPart
  sumPart le h := ⟨fun mem => h.1 (Multiset.mem_of_le le mem),
    fun fold => (Multiset.card_le_card le).trans (h.2 fold)⟩

theorem magnitudeProduct {m : Multiset Int} (obeyed : Rules.signed.product m) :
    m.prod ≠ 0 ∧ (m.prod = 1 ∨ Rules.signed.product {m.prod}) := by
  obtain ⟨few, big⟩ := obeyed
  rcases atMostOne few with rfl | ⟨n, rfl⟩
  · exact ⟨one_ne_zero, .inl rfl⟩
  · have atLeast := big n (Multiset.mem_singleton_self n)
    rw [Multiset.prod_singleton]
    exact ⟨by omega, .inr ⟨few, big⟩⟩

theorem signedFolding : Rules.signed.Folding where
  product _ := magnitudeProduct
  sum m _ := by
    by_cases zero : m.sum = 0
    · exact .inl zero
    · exact .inr fun mem => zero (Multiset.mem_singleton.1 mem).symm
  solid := trivial

theorem constantAlone {m : Multiset Int} (few : m.card ≤ 1) (noZero : 0 ∉ m) :
    m.sum = 0 ∨ ({m.sum} : Multiset Int).card ≤ 1 ∧ 0 ∉ ({m.sum} : Multiset Int) := by
  rcases atMostOne few with rfl | ⟨n, rfl⟩
  · exact .inl rfl
  · rw [Multiset.sum_singleton]
    exact .inr ⟨few, noZero⟩

theorem constantAloneValue {m : Multiset Int} (few : m.card ≤ 1) :
    Formal.arithmetic.const m.sum = (m.map Formal.arithmetic.const).sum := by
  rcases atMostOne few with rfl | ⟨n, rfl⟩
  · exact constZero
  · rw [Multiset.map_singleton, Multiset.sum_singleton, Multiset.sum_singleton]

theorem normalFolding {settings : Settings} (fold : settings.constants = .fold) :
    (Rules.normal settings).Folding where
  product _ := magnitudeProduct
  sum m obeyed := by
    rcases constantAlone (obeyed.2 fold) obeyed.1 with none | ⟨few, noZero⟩
    · exact .inl none
    · exact .inr ⟨noZero, fun _ => few⟩
  solid := trivial

section Runs

variable {settings : Settings} {e r left combined : Expr}

theorem normalSigned (shaped : Shaped (.normal settings) e) : Shaped .signed e :=
  shaped.mono id (fun _ => id) (fun _ => And.left) id

theorem combinedNormal (shaped : Shaped .signed left) (folds : folded settings left = .ok combined) :
    Shaped (.normal settings) combined := by
  unfold folded at folds
  split at folds
  · have flattened := shapedFlattened shaped
    have kept := foldConstantsShaped signedFolding shaped folds
    have obeys := (foldConstantsObeys flattened folds).2
    exact kept.obeying obeys id (fun _ obeyed _ => obeyed)
      (fun _ noZero rule => ⟨noZero, fun _ => rule.1⟩) id
  · rename_i expand
    cases folds
    refine shaped.mono id (fun _ => id) (fun _ noZero => ⟨noZero, fun fold => ?_⟩) id
    rw [expand] at fold
    cases fold

theorem foldedRearranged (shaped : Shaped (.normal settings) left)
    (folds : folded settings left = .ok combined) : Rearranged combined left := by
  have again := combinedNormal (normalSigned shaped) folds
  unfold folded at folds
  split at folds
  · rename_i fold
    refine formalRearranged (normalSigned again) (normalSigned shaped) ?_
    exact foldConstantsKeeps Formal.arithmetic (normalFolding fold)
      (fun _ obeyed => constantAloneValue (obeyed.2 fold)) shaped folds
  · cases folds
    exact fun _ _ _ => rfl

structure Course (settings : Settings) (e start terms left combined o r : Expr) : Prop where
  prepares : prepared settings e = .ok start
  signs : signed settings start = .ok terms
  cancels : cancelOpposites settings terms = .ok left
  restructures : restructured settings left = .ok r
  folds : folded settings left = .ok combined
  orders : orderOperands settings combined = .ok o
  result : r = unflattenOnce o
  shapedTerms : Shaped .signed terms
  shapedLeft : Shaped .signed left
  sorted : ∀ t ∈ sortedInTurn settings combined, t ∈ sortedOperands settings e

theorem courseOf (run : normalized settings e = .ok r) :
    ∃ start terms left combined o, Course settings e start terms left combined o r := by
  obtain ⟨start, prepares, run⟩ := bindOk.1 run
  obtain ⟨terms, signs, run⟩ := bindOk.1 run
  obtain ⟨left, cancels, last⟩ := bindOk.1 run
  have shapedTerms := signedShaped signs (preparedWritten (writtenAny e) prepares)
  have shapedLeft := cancelOppositesShaped cancels shapedTerms
  obtain ⟨combined, o, folds, orders, result, sorted⟩ := restructuredOk last
  rw [flattenOnceFixed (shapedFlattened shapedLeft)] at folds
  have both : (signed settings start >>= cancelOpposites settings) = .ok left :=
    bindOk.2 ⟨terms, signs, cancels⟩
  refine ⟨start, terms, left, combined, o, prepares, signs, cancels, last, folds, orders,
    result, shapedTerms, shapedLeft, fun t mem => ?_⟩
  rw [sortedOperands, prepares, fromResult, both, fromResult, sorted]
  exact List.mem_append_right _ mem

section Course

variable {start terms o : Expr}

theorem Course.normal (course : Course settings e start terms left combined o r) :
    Shaped (.normal settings) combined :=
  combinedNormal course.shapedLeft course.folds

theorem Course.rearranged (course : Course settings e start terms left combined o r) :
    Rearranged r combined := by
  rw [course.result]
  exact (unflattenRearranged o).trans (orderOperandsRearranged course.orders)

theorem Course.shaped (course : Course settings e start terms left combined o r) :
    Shaped (.normal settings) (flattenOnce r) :=
  course.normal.rearranged (flattenOnceFlattened r)
    (course.rearranged.symm.trans (flattenRearranged r).symm)

theorem Course.plain (course : Course settings e start terms left combined o r) :
    Unflattened r := by
  rw [course.result]
  exact unflattenOnceUnflattened o

theorem Course.written (course : Course settings e start terms left combined o r) :
    WrittenIn { plainVocabulary settings True with neg := True } r := by
  have known := preparedWritten (writtenAny e) course.prepares
  have onLeft := cancelOppositesWritten (fun _ => .inl rfl) course.cancels
    (signedWritten course.signs known)
  refine restructuredWritten (fun fold n expand => ?_) course.restructures onLeft
  rw [fold] at expand
  cases expand

end Course

end Runs

end ArithEquiv.Normalize
