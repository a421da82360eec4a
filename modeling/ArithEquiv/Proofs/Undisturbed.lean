import ArithEquiv.Proofs.Desugaring
import ArithEquiv.Proofs.NormalForms

/-! A normal form whose constants are combined, on its way through a second run. Its negations
become products with minus one. Neither a factor nor a numerator is a sum then, so distribution has
nothing to multiply out, and what constants there are combine as in a formal sum. -/
namespace ArithEquiv

namespace Normalize

open ArithEquiv.Expr Formal

def Rules.spread : Rules where
  product m := 0 ∉ m
  sum m := 0 ∉ m ∧ m.card ≤ 1
  negation := False
  solid := True
  productPart := Rules.signed.sumPart
  sumPart le h := ⟨fun mem => h.1 (Multiset.mem_of_le le mem), (Multiset.card_le_card le).trans h.2⟩

theorem spreadFolding : Rules.spread.Folding where
  product m obeyed := by
    have some : m.prod ≠ 0 := Multiset.prod_ne_zero obeyed
    exact ⟨some, .inr fun mem => some (Multiset.mem_singleton.1 mem).symm⟩
  sum m obeyed := (constantAlone obeyed.2 obeyed.1).imp_right And.symm
  solid := trivial

section Spread

variable {settings : Settings}

noncomputable def desugaredOutline (e : Expr) : Outline :=
  e.value (Outline.interpretation .spread).desugared

structure Spreads (e : Expr) (p : Outline) : Prop where
  sound : p.sound
  closed : p.Closed .spread
  negation : kind e = .negation → p.kind = .product
  other : kind e ≠ .negation → p.kind = kind e
  solid : kind e = .atom → p.solid
  factors : kind e = .constant ∨ kind e = .atom → p.factors = constants [e]
  noZero : kind e = .product → 0 ∉ p.factors
  addends : kind e ≠ .sum → p.addends = constants [e]

theorem constantsSum {f : Expr → Multiset Int} {es : List Expr}
    (each : ∀ e ∈ es, f e = constants [e]) : (es.map f).sum = constants es := by
  induction es with
  | nil => rfl
  | cons e rest ih =>
    rw [List.map_cons, List.sum_cons, each e (by simp), ih fun t mem => each t (by simp [mem]),
      ← constantsCons]

theorem desugaredFlat (op : AssocOp) (first second : Expr) (rest : List Expr) :
    desugaredOutline (.flat op first second rest) =
      .gather .spread op ((first :: second :: rest).map desugaredOutline) := by
  rw [desugaredOutline, valueFlat, Interpretation.chainDesugared]
  exact Outline.chainEq .spread op _ _ _

theorem Spreads.ofLeaf {e : Expr} (leaf : kind e = .constant ∨ kind e = .atom) {p : Outline}
    (sound : p.sound) (same : p.kind = kind e) (solid : kind e = .atom → p.solid)
    (factors : p.factors = constants [e]) (addends : p.addends = constants [e]) : Spreads e p := by
  have notProduct : kind e ≠ .product := by
    intro found
    rcases leaf with h | h <;> cases h.symm.trans found
  refine ⟨sound, fun _ found => absurd (same.symm.trans found) notProduct, fun found => ?_,
    fun _ => same, solid, fun _ => factors, fun found => absurd found notProduct, fun _ => addends⟩
  rcases leaf with h | h <;> cases h.symm.trans found

theorem spreadFactors {es : List Expr} (factors : ∀ e ∈ es, kind e = .constant ∨ kind e = .atom)
    (each : ∀ e ∈ es, Spreads e (desugaredOutline e)) :
    ((es.map desugaredOutline).map Outline.factors).sum = constants es := by
  rw [List.map_map]
  exact constantsSum fun e mem => (each e mem).factors (factors e mem)

theorem negationSpreads {arg : Expr} (root : kind arg = .atom ∨ kind arg = .product)
    (inner : Spreads arg (desugaredOutline arg)) :
    Spreads (.neg arg) (desugaredOutline (.neg arg)) := by
  have notNegation : kind arg ≠ .negation := by
    intro found
    rcases root with h | h <;> cases h.symm.trans found
  have factor : (desugaredOutline arg).kind.isFactor := by
    rw [inner.other notNegation]
    rcases root with h | h <;> rw [h] <;> trivial
  have solid : (desugaredOutline arg).solid := by
    rcases root with atom | product
    · exact inner.solid atom
    · exact inner.closed trivial ((inner.other notNegation).trans product)
  have noZero : 0 ∉ ({-1} : Multiset Int) + (desugaredOutline arg).factors := by
    rw [Multiset.mem_add, Multiset.mem_singleton]
    rintro (impossible | mem)
    · cases impossible
    · rcases root with atom | product
      · rw [inner.factors (.inr atom), constantsMem, List.mem_singleton] at mem
        rw [← mem] at atom
        cases atom
      · exact inner.noZero product mem
  refine ⟨mulSound.2 ⟨⟨⟨trivial, trivial⟩, inner.sound, factor⟩, noZero⟩, fun _ _ => ?_,
    fun _ => rfl, fun other => absurd rfl other, fun found => ?_, fun found => ?_, fun found => ?_,
    fun _ => rfl⟩
  · exact ⟨_, List.mem_cons_of_mem _ (List.mem_singleton_self _), solid⟩
  · cases found
  · rcases found with h | h <;> cases h
  · cases found

section Chains

variable {first second : Expr} {rest : List Expr}
  (each : ∀ e ∈ first :: second :: rest, Spreads e (desugaredOutline e))
include each

theorem productSpreads
    (factors : ∀ e ∈ first :: second :: rest, kind e = .constant ∨ kind e = .atom)
    (noZero : 0 ∉ constants (first :: second :: rest))
    (solid : ∃ e ∈ first :: second :: rest, kind e = .atom) :
    Spreads (.flat .mul first second rest) (desugaredOutline (.flat .mul first second rest)) := by
  rw [← spreadFactors factors each] at noZero
  rw [desugaredFlat]
  refine ⟨⟨?_, noZero⟩, fun _ _ => ?_, fun found => ?_, fun _ => rfl, fun found => ?_,
    fun found => ?_, fun _ => noZero, fun _ => rfl⟩
  · rw [List.forall_mem_map]
    intro e mem
    refine ⟨(each e mem).sound, ?_⟩
    rcases factors e mem with h | h
    · rw [(each e mem).other (by rw [h]; decide), h]
      trivial
    · rw [(each e mem).other (by rw [h]; decide), h]
      trivial
  · obtain ⟨e, mem, atom⟩ := solid
    exact ⟨desugaredOutline e, List.mem_map_of_mem mem, (each e mem).solid atom⟩
  · cases found
  · cases found
  · rcases found with h | h <;> cases h

theorem sumSpreads (terms : ∀ e ∈ first :: second :: rest, kind e ≠ .sum)
    (obeyed : Rules.spread.sum (constants (first :: second :: rest))) :
    Spreads (.flat .add first second rest) (desugaredOutline (.flat .add first second rest)) := by
  have total : (((first :: second :: rest).map desugaredOutline).map Outline.addends).sum =
      constants (first :: second :: rest) := by
    rw [List.map_map]
    exact constantsSum fun e mem => (each e mem).addends (terms e mem)
  rw [← total] at obeyed
  rw [desugaredFlat]
  refine ⟨⟨?_, obeyed⟩, fun _ found => ?_, fun found => ?_, fun _ => rfl, fun found => ?_,
    fun found => ?_, fun found => ?_, fun term => absurd rfl term⟩
  · rw [List.forall_mem_map]
    exact fun e mem => ⟨(each e mem).sound, (each e mem).closed⟩
  · cases found
  · cases found
  · cases found
  · rcases found with h | h <;> cases h
  · cases found

end Chains

theorem normalSpreads (fold : settings.constants = .fold) {e : Expr}
    (shaped : Shaped (.normal settings) e) : Spreads e (desugaredOutline e) := by
  induction shaped with
  | const n => exact .ofLeaf (.inl rfl) trivial rfl (fun found => by cases found) rfl rfl
  | var name => exact .ofLeaf (.inr rfl) trivial rfl (fun _ => trivial) rfl rfl
  | neg _ root _ ih => exact negationSpreads root ih
  | @div left right numerator _ _ ihl ihr =>
    refine .ofLeaf (.inr rfl) ⟨ihl.sound, ihr.sound, fun sum => ?_, ihl.closed, ihr.closed⟩ rfl
      (fun _ => trivial) rfl rfl
    by_cases negative : kind left = .negation
    · cases (ihl.negation negative).symm.trans sum
    · exact numerator ((ihl.other negative).symm.trans sum)
  | product factors obeyed solid _ ih =>
    refine productSpreads ih factors (fun mem => ?_) (solid trivial)
    have big := obeyed.2 0 mem
    omega
  | sum terms obeyed _ ih => exact sumSpreads ih terms ⟨obeyed.1, obeyed.2 fold⟩

theorem preparedSpread (fold : settings.constants = .fold) {r start : Expr}
    (shaped : Shaped (.normal settings) (flattenOnce r)) (run : prepared settings r = .ok start) :
    Shaped .spread (flattenOnce start) := by
  have spreads := normalSpreads fold shaped
  have same : outline .spread (flattenOnce start) = desugaredOutline (flattenOnce r) := by
    rw [outline, valueFlattenOnce, preparedMeans _ run,
      Interpretation.preparingFold _ fold, desugaredOutline, valueFlattenOnce]
  refine soundShaped (flattenOnceFlattened start) ?_ ?_
  · rw [same]
    exact spreads.sound
  · rw [same]
    exact spreads.closed

end Spread

section Distribution

variable {settings : Settings} {e r : Expr}

theorem singleOfTerm (term : kind e ≠ .sum) : (Summands.ofExpr e).isSingle = true := by
  cases e with
  | bin op _ _ =>
    cases op with
    | add => exact absurd rfl term
    | sub => exact absurd rfl term
    | _ => rfl
  | _ => rfl

theorem soundMultipliedOut {rules : Rules} (sound : (outline rules e).sound) : MultipliedOut e := by
  have noSum : ∀ t : Expr, (outline rules t).kind.isFactor → kind t ≠ .sum := by
    intro t factor sum
    rw [outlineKind, sum] at factor
    exact factor
  induction e using Expr.byArgs with
  | const n => exact .const n
  | var name => exact .var name
  | neg arg ih => exact .neg (ih sound.2.1)
  | bin op left right ihl ihr =>
    cases op with
    | add =>
      obtain ⟨⟨⟨onLeft, _⟩, onRight, _⟩, _⟩ := addSound.1 sound
      refine .bin (fun other => ?_) (fun other => ?_) (ihl onLeft) (ihr onRight)
      · rcases other with h | h <;> cases h
      · cases other
    | sub => exact sound.elim
    | mul =>
      obtain ⟨⟨⟨onLeft, factorLeft⟩, onRight, factorRight⟩, _⟩ := mulSound.1 sound
      exact .bin (fun _ => singleOfTerm (noSum left factorLeft))
        (fun _ => singleOfTerm (noSum right factorRight)) (ihl onLeft) (ihr onRight)
    | div =>
      obtain ⟨onLeft, onRight, numerator, _⟩ := sound
      refine .bin (fun _ => singleOfTerm fun sum => ?_) (fun other => ?_) (ihl onLeft) (ihr onRight)
      · exact numerator ((outlineKind left).trans sum)
      · cases other
  | flat op first second rest ih =>
    rw [outlineFlat] at sound
    refine .flat fun e mem => ih e mem ?_
    cases op with
    | add => exact (sound.1 _ (List.mem_map_of_mem mem)).1
    | mul => exact (sound.1 _ (List.mem_map_of_mem mem)).1

theorem distributeNothing (out : MultipliedOut e) :
    e.bottomUpM (distributeNode settings) = .ok e := by
  induction out with
  | const n => rw [bottomUpMConst]; rfl
  | var name => rw [bottomUpMVar]; rfl
  | neg _ ih => rw [bottomUpMNeg, ih]; rfl
  | @bin op left right onLeft onRight _ _ ihl ihr =>
    rw [bottomUpMBin, ihl, ihr]
    show distributeNode settings (.bin op left right) = _
    unfold distributeNode
    cases op with
    | mul =>
      dsimp only
      rw [onLeft (.inl rfl), onRight rfl]
      rfl
    | div =>
      dsimp only
      rw [onLeft (.inr rfl)]
      rfl
    | _ => rfl
  | @flat op first second rest _ ih =>
    have others : rest.mapM (bottomUpM (distributeNode settings)) = .ok rest :=
      mapMOk.2 (List.forall₂_same.2 fun e mem => ih e (by simp [mem]))
    rw [bottomUpMFlat, ih first (by simp), ih second (by simp), others]
    rfl

theorem restructuredSpread (fold : settings.constants = .fold)
    (shaped : Shaped .spread (flattenOnce e)) (run : restructured settings e = .ok r) :
    Shaped .spread (flattenOnce r) ∧ formal r = formal e := by
  obtain ⟨combined, o, folds, orders, rfl, _⟩ := restructuredOk run
  unfold folded at folds
  rw [fold] at folds
  have shaped' := foldConstantsShaped spreadFolding shaped folds
  have value := foldConstantsKeeps Formal.arithmetic spreadFolding
    (fun _ obeyed => constantAloneValue obeyed.2) shaped folds
  have flat : Rearranged (flattenOnce (unflattenOnce o)) combined :=
    (flattenRearranged _).trans ((unflattenRearranged o).trans (orderOperandsRearranged orders))
  refine ⟨shaped'.rearranged (flattenOnceFlattened _) flat.symm, ?_⟩
  have chains : formal (unflattenOnce o) = formal o := valueUnflattenOnce _ o
  have ordered : formal o = formal combined := orderOperandsValue Formal.arithmetic.commutative orders
  have flattened : formal (flattenOnce e) = formal e := valueFlattenOnce _ e
  exact chains.trans (ordered.trans (value.trans flattened))

theorem distributedSpread (fold : settings.constants = .fold)
    (shaped : Shaped .spread (flattenOnce e)) (run : distributed settings e = .ok r) :
    formal r = formal e := by
  have kept : Shaped .spread (flattenOnce r) ∧ formal r = formal e := by
    refine fixedPointKeeps (P := fun t => Shaped .spread (flattenOnce t) ∧ formal t = formal e)
      (fun {t t'} before stepped => ?_) run ⟨shaped, rfl⟩
    obtain ⟨chains, unflattened, again⟩ := bindOk.1 stepped
    obtain ⟨crossed, multiplied, last⟩ := bindOk.1 again
    obtain rfl := unflattenRun unflattened
    have sound : (outline .spread (unflattenOnce t)).sound := by
      have flat := (shapedSound before.1).1
      rw [outline, valueFlattenOnce] at flat
      rw [outline, valueUnflattenOnce]
      exact flat
    rw [distributeNothing (soundMultipliedOut sound)] at multiplied
    cases multiplied
    have same : Rearranged (flattenOnce t) (flattenOnce (unflattenOnce t)) :=
      (flattenRearranged t).trans ((flattenRearranged _).trans (unflattenRearranged t)).symm
    obtain ⟨shaped', value⟩ :=
      restructuredSpread fold (before.1.rearranged (flattenOnceFlattened _) same) last
    have chains : formal (unflattenOnce t) = formal t := valueUnflattenOnce _ t
    exact ⟨shaped', value.trans (chains.trans before.2)⟩
  exact kept.2

theorem signedFormal (run : signed settings e = .ok r) :
    ∃ products, distributed settings e = .ok products ∧ formal r = formal products := by
  obtain ⟨products, multiplied, run⟩ := bindOk.1 run
  obtain ⟨signs, reduced, run⟩ := bindOk.1 run
  obtain ⟨units, cleaned, last⟩ := bindOk.1 run
  refine ⟨products, multiplied, ?_⟩
  rw [formal, takeSignsValue _ last, cleanUnitsValue _ cleaned, cleanSignsValue _ reduced]
  rfl

theorem combinedTerms (fold : settings.constants = .fold) {start terms : Expr}
    (shaped : Shaped (.normal settings) (flattenOnce e)) (prepares : prepared settings e = .ok start)
    (signs : signed settings start = .ok terms) : formal terms = formal e := by
  obtain ⟨products, multiplied, same⟩ := signedFormal signs
  have spread := preparedSpread fold shaped prepares
  have begun : formal start = formal e := by
    unfold prepared at prepares
    rw [fold] at prepares
    cases prepares
    rw [formal, negToMulValue, subToAddValue]
    rfl
  exact same.trans ((distributedSpread fold spread multiplied).trans begun)

end Distribution

end Normalize

end ArithEquiv
