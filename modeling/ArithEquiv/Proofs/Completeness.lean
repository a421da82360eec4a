import ArithEquiv.Proofs.UnitTerms
import ArithEquiv.Proofs.Words

/-! Where constants are written out, normal forms of trees without quotients decide polynomial
identity. The terms left after cancellation are names joined by products, their names in order, and
no two of them are opposite. The polynomial then tells which terms there are, each as often as it
says, and trees with the same terms are put in one order. -/
namespace ArithEquiv.Normalize

open ArithEquiv.Expr Formal

def unitVocabulary : Vocabulary where
  const n := n = 0 ∨ n = 1 ∨ n = -1
  neg := True
  sub := False
  div := False

section Terms

variable {e u : Expr} {first second : Expr} {rest : List Expr}

theorem onlyUnits : unitVocabulary.OnlyUnits := fun _ => id

theorem unitProduct (shaped : Shaped .signed (.flat .mul first second rest))
    (written : WrittenIn unitVocabulary (.flat .mul first second rest)) :
    ∃ xs : List String, first :: second :: rest = xs.map Expr.var := by
  have each := writtenFlat.1 written
  have named : ∀ e ∈ first :: second :: rest, ∃ x, e = .var x := by
    intro e mem
    rcases atomKind (unitFactors onlyUnits shaped written e mem) with named | ⟨left, right, rfl⟩
    · exact named
    · exact (each _ mem).1.elim
  clear shaped written each
  generalize first :: second :: rest = es at named
  induction es with
  | nil => exact ⟨[], rfl⟩
  | cons e es ih =>
    obtain ⟨x, rfl⟩ := named e (by simp)
    obtain ⟨xs, rfl⟩ := ih fun t mem => named t (by simp [mem])
    exact ⟨x :: xs, rfl⟩

theorem wordOfNames (xs : List String) : xs ∈ ((xs.map Expr.var).map words).prod := by
  induction xs with
  | nil => exact Language.nil_mem_one
  | cons x xs ih => exact Language.append_mem_mul (show [x] ∈ words (.var x) from rfl) ih

variable {hash : NodeHash} {known : List Expr}

theorem termSettled (shaped : Shaped .signed e) (written : WrittenIn unitVocabulary e)
    (root : kind e = .atom ∨ kind e = .product) (inTurn : ∀ w ∈ words e, InTurn hash known w) :
    Settled hash e ∧ ∀ op, ∀ t ∈ e.operandsOf op, t ∈ known := by
  cases shaped with
  | var name =>
    refine ⟨⟨.var name, fun _ => .var name⟩, fun op t mem => ?_⟩
    cases mem
  | div => exact written.1.elim
  | @product first second rest factors obeyed solid each =>
    have flattened := shapedFlattened (Shaped.product factors obeyed solid each)
    obtain ⟨xs, all⟩ := unitProduct (.product factors obeyed solid each) written
    have word : xs ∈ words (.flat .mul first second rest) := by
      rw [wordsFlat, all]
      exact wordOfNames xs
    obtain ⟨sorted, members⟩ := inTurn xs word
    have count := congrArg List.length all
    rw [List.length_map, List.length_cons, List.length_cons] at count
    have leaf : ∀ e ∈ first :: second :: rest, ∃ x, e = .var x ∧ e ∈ known := by
      intro e mem
      rw [all] at mem
      obtain ⟨x, member, rfl⟩ := List.mem_map.1 mem
      exact ⟨x, rfl, members (by omega) x member⟩
    refine ⟨⟨flattened, fun op => .flat (fun _ _ => ?_) fun e mem => ?_⟩, fun op t mem => ?_⟩
    · rw [all]
      exact List.pairwise_map.2 sorted
    · obtain ⟨x, rfl, _⟩ := leaf e mem
      exact .var x
    · have none : operandsOfAll op (first :: second :: rest) = [] := by
        rw [all]
        clear all sorted members count word
        induction xs with
        | nil => rfl
        | cons x xs ih => rw [List.map_cons, operandsOfAll, ih]; rfl
      rw [operandsOfFlat, none, List.append_nil] at mem
      split at mem
      · exact (leaf t mem).choose_spec.2
      · cases mem
  | const n => rcases root with h | h <;> cases h
  | neg _ _ _ => rcases root with h | h <;> cases h
  | sum _ _ _ => rcases root with h | h <;> cases h

theorem termsEqual (apart : NoCollisions hash known) (shaped : Shaped .signed e)
    (shaped' : Shaped .signed u) (written : WrittenIn unitVocabulary e)
    (written' : WrittenIn unitVocabulary u) (root : kind e = .atom ∨ kind e = .product)
    (root' : kind u = .atom ∨ kind u = .product) (inTurn : ∀ w ∈ words e, InTurn hash known w)
    (inTurn' : ∀ w ∈ words u, InTurn hash known w) (same : formal e = formal u) : e = u := by
  obtain ⟨settled, within⟩ := termSettled shaped written root inTurn
  obtain ⟨settled', within'⟩ := termSettled shaped' written' root' inTurn'
  refine settledUnique settled settled' (fun op => apart.part fun t mem => ?_)
    (formalRearranged shaped shaped' same)
  exact (List.mem_append.1 mem).elim (within op t) (within' op t)

end Terms

theorem cancelledUnopposed {hash : NodeHash} {known : List Expr} {e : Expr}
    (apart : NoCollisions hash known) (shaped : Shaped .signed e)
    (written : WrittenIn unitVocabulary e) (stable : e.bottomUp cancelNode = e)
    (inTurn : ∀ w ∈ words e, InTurn hash known w) :
    ∃ ms, formal e = gathered ms ∧ Unopposed ms := by
  refine stableUnopposed .plain onlyUnits shaped written stable ?_
  rintro first second rest rfl t mem arg mem' root root' same
  have known' := writtenFlat.1 written
  have inside : ∀ t ∈ first :: second :: rest, ∀ w ∈ words t, InTurn hash known w := by
    intro t mem w found
    refine inTurn w ?_
    rw [wordsFlat]
    exact memWordsSum.2 ⟨t, mem, found⟩
  cases shaped with
  | sum _ _ each =>
    cases each _ mem' with
    | neg _ _ inner =>
      exact termsEqual apart (each t mem) inner (known' t mem) (known' _ mem').2 root root'
        (inside t mem) (inside (.neg arg) mem') same

section Runs

variable {settings : Settings} {e r : Expr}

structure Reduced (settings : Settings) (e r left : Expr) (ms : Multiset Monomial) : Prop where
  restructures : restructured settings left = .ok r
  shaped : Shaped .signed left
  written : WrittenIn unitVocabulary left
  value : formal left = gathered ms
  unopposed : Unopposed ms
  polynomial : left.polynomial = e.polynomial
  sorted : ∀ t ∈ sortedRestructuring settings left, t ∈ sortedOperands settings e

theorem polynomialKept {f : Settings → Expr → Except Fault Expr} {a b : Expr}
    (keeps : KeepsValues.{0} f) (run : f settings a = .ok b) : b.polynomial = a.polynomial := by
  have same := keeps polynomials.exact run
  rwa [polynomials.arithmeticValue, polynomials.arithmeticValue] at same

theorem normalizedReduced (expand : settings.constants = .expand) (free : e.DivisionFree)
    (run : normalized settings e = .ok r)
    (apart : NoCollisions settings.hash (sortedOperands settings e)) :
    ∃ left ms, Reduced settings e r left ms := by
  obtain ⟨start, begun, run⟩ := bindOk.1 run
  obtain ⟨terms, taken, run⟩ := bindOk.1 run
  obtain ⟨left, cancels, last⟩ := bindOk.1 run
  have written := preparedWritten (divisionFreeWritten free) begun
  have onTerms := signedWritten taken written
  have onLeft : WrittenIn unitVocabulary left := by
    refine (cancelOppositesWritten (fun _ => .inl rfl) cancels onTerms).mono ?_ id id id
    exact fun n known => known expand
  have shapedTerms := signedShaped taken written
  have shaped := cancelOppositesShaped cancels shapedTerms
  obtain ⟨products, multiplied, flattened, sameWords⟩ := signedWords taken
  have within : ∀ t ∈ sortedCleaningSigns settings products, t ∈ sortedOperands settings e := by
    intro t mem
    rw [sortedOperands, begun, fromResult, multiplied, fromResult]
    exact List.mem_append_left _ (List.mem_append_right _ mem)
  have sorted : ∀ t ∈ sortedRestructuring settings left, t ∈ sortedOperands settings e := by
    intro t mem
    have both : (signed settings start >>= cancelOpposites settings) = .ok left :=
      bindOk.2 ⟨terms, taken, cancels⟩
    rw [sortedOperands, begun, fromResult, both, fromResult]
    exact List.mem_append_right _ mem
  have inTurn : ∀ w ∈ words left,
      InTurn settings.hash (sortedCleaningSigns settings products) w := by
    intro w mem
    have before := cancelOppositesWords cancels mem
    rw [sameWords] at before
    refine wordsInTurn (v := plainVocabulary settings False) (fun div => div)
      (orderedProductsShaped multiplied written) ?_ ?_ ?_ w before
    · rw [WrittenIn, valueOrderOnce (Vocabulary.commutative _), valueFlattenOnce]
      exact distributedWritten (fun fold => by rw [expand] at fold; cases fold) multiplied written
    · exact orderOnceInOrder settings.hash .mul _
    · intro t mem
      rw [sortedCleaningSigns, flattened, fromResult]
      exact List.mem_flatMap.2 ⟨_, trailStart settings _ _, mem⟩
  obtain ⟨ms, value, unopposed⟩ := cancelledUnopposed (apart.part within) shaped onLeft
    (cancelOppositesStable cancels) inTurn
  refine ⟨left, ms, last, shaped, onLeft, value, unopposed, ?_, sorted⟩
  rw [polynomialKept (f := cancelOpposites) (fun exact _ _ _ => cancelOppositesValue exact) cancels,
    polynomialKept (f := signed) (fun exact _ _ _ => signedValue exact) taken,
    polynomialKept (f := prepared) (fun exact _ _ _ => preparedValue exact) begun]

theorem reducedUnique (expand : settings.constants = .expand) {a b left left' s : Expr}
    {ms ns : Multiset Monomial} (onA : Reduced settings a r left ms)
    (onB : Reduced settings b s left' ns) (same : a.polynomial = b.polynomial)
    (apart : NoCollisions settings.hash (sortedOperands settings a ++ sortedOperands settings b)) :
    r = s := by
  have collected : collect (formal left) = collect (formal left') := by
    rw [collectFormal (fun div => div) onA.written, collectFormal (fun div => div) onB.written]
    refine polynomialLetters (fun div => div) onA.written onB.written ?_
    rw [onA.polynomial, onB.polynomial, same]
  rw [onA.value, onB.value] at collected
  have values : formal left = formal left' := by
    rw [onA.value, onB.value, unopposedUnique onA.unopposed onB.unopposed collected]
  have rearranged := formalRearranged onA.shaped onB.shaped values
  obtain ⟨combined, o, folds, ordered, rfl, sorted⟩ := restructuredOk onA.restructures
  obtain ⟨combined', o', folds', ordered', rfl, sorted'⟩ := restructuredOk onB.restructures
  rw [foldedExpand expand] at folds folds'
  cases folds
  cases folds'
  refine congrArg unflattenOnce (orderOperandsUnique ordered ordered' (flattenOnceFlattened left)
    (flattenOnceFlattened left') ?_ (apart.part fun t mem => ?_))
  · exact (flattenRearranged left).trans (rearranged.trans (flattenRearranged left').symm)
  · rw [← sorted, ← sorted'] at mem
    rcases List.mem_append.1 mem with mem | mem
    · exact List.mem_append_left _ (onA.sorted t mem)
    · exact List.mem_append_right _ (onB.sorted t mem)

end Runs

theorem normalizedPolynomial {settings : Settings} (expand : settings.constants = .expand)
    {a b r s : Expr} (freeA : a.DivisionFree) (freeB : b.DivisionFree)
    (runA : normalized settings a = .ok r) (runB : normalized settings b = .ok s) :
    (r = s → a.polynomial = b.polynomial) ∧
      (NoCollisions settings.hash (sortedOperands settings a ++ sortedOperands settings b) →
        a.polynomial = b.polynomial → r = s) := by
  refine ⟨fun same => ?_, fun apart same => ?_⟩
  · have keeps : KeepsValues.{0} normalized := fun exact _ _ _ => normalizedValue exact
    rw [← polynomialKept keeps runA, same, polynomialKept keeps runB]
  · obtain ⟨left, ms, onA⟩ := normalizedReduced expand freeA runA
      (apart.part fun t mem => List.mem_append_left _ mem)
    obtain ⟨left', ns, onB⟩ := normalizedReduced expand freeB runB
      (apart.part fun t mem => List.mem_append_right _ mem)
    exact reducedUnique expand onA onB same apart

theorem polynomialsDecided {settings : Settings} (expand : settings.constants = .expand)
    {a b r s : Expr} (freeA : a.DivisionFree) (freeB : b.DivisionFree) {journal journal' : Journal}
    (runA : (normalForm settings a journal).1 = .ok r)
    (runB : (normalForm settings b journal').1 = .ok s) :
    (r = s → a.polynomial = b.polynomial) ∧
      (NoCollisions settings.hash (sortedOperands settings a ++ sortedOperands settings b) →
        a.polynomial = b.polynomial → r = s) := by
  rw [normalFormGives settings a journal] at runA
  rw [normalFormGives settings b journal'] at runB
  exact normalizedPolynomial expand freeA freeB runA runB

def factored : Expr := .bin .mul (.bin .add (.var "x") (.const 1)) (.var "y")

def multiplied : Expr := .bin .add (.var "y") (.bin .mul (.var "y") (.var "x"))

def inOneOrder : Expr := .bin .add (.var "y") (.bin .mul (.var "x") (.var "y"))

theorem polynomialsDecidedFactored : ∃ r s, (normalForm expanding factored {}).1 = .ok r ∧
    (normalForm expanding multiplied {}).1 = .ok s ∧
    NoCollisions expanding.hash
      (sortedOperands expanding factored ++ sortedOperands expanding multiplied) ∧
    factored.polynomial = multiplied.polynomial ∧ r = s := by
  have runA : (normalForm expanding factored {}).1 = .ok inOneOrder := by
    rw [expandingByNumbers]
    decide +kernel
  have runB : (normalForm expanding multiplied {}).1 = .ok inOneOrder := by
    rw [expandingByNumbers]
    decide +kernel
  have apart : NoCollisions expanding.hash
      (sortedOperands expanding factored ++ sortedOperands expanding multiplied) := by
    refine .ofDistinct ?_
    rw [expandingByNumbers]
    decide +kernel
  have freeA : factored.DivisionFree :=
    .bin (by decide) (.bin (by decide) (.var "x") (.const 1)) (.var "y")
  have freeB : multiplied.DivisionFree :=
    .bin (by decide) (.var "y") (.bin (by decide) (.var "y") (.var "x"))
  have decided := polynomialsDecided rfl freeA freeB runA runB
  have same := decided.1 rfl
  exact ⟨inOneOrder, inOneOrder, runA, runB, apart, same, decided.2 apart same⟩

end ArithEquiv.Normalize
