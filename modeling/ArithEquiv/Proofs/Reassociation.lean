import ArithEquiv.Proofs.Grouping

/-! What flattening forgets, which is the grouping of sums and products and nothing else. Trees that
differ in their grouping offer the same operands to a chain around them, so they are flattened alike.
The other way round, the classes of such trees are values of an interpretation whose sum and product
associate, under which a tree has the value of what it is flattened to. Unflattening leads back to a
tree that leans to the left. -/
namespace ArithEquiv

inductive Regrouped : Expr → Expr → Prop where
  | refl (e : Expr) : Regrouped e e
  | symm {a b : Expr} (same : Regrouped a b) : Regrouped b a
  | trans {a b c : Expr} (first : Regrouped a b) (second : Regrouped b c) : Regrouped a c
  | assoc (op : AssocOp) (first second third : Expr) :
      Regrouped (.bin op.bin (.bin op.bin first second) third)
        (.bin op.bin first (.bin op.bin second third))
  | chain (op : AssocOp) (first second : Expr) (rest : List Expr) :
      Regrouped (.flat op first second rest) (Normalize.leftChain op.bin first (second :: rest))
  | neg {a b : Expr} (inner : Regrouped a b) : Regrouped (.neg a) (.neg b)
  | bin {op : BinOp} {l l' r r' : Expr} (onLeft : Regrouped l l') (onRight : Regrouped r r') :
      Regrouped (.bin op l r) (.bin op l' r')

inductive LeansLeft : Expr → Prop where
  | const (n : Int) : LeansLeft (.const n)
  | var (name : String) : LeansLeft (.var name)
  | neg {arg : Expr} (inner : LeansLeft arg) : LeansLeft (.neg arg)
  | bin {op : BinOp} {left right : Expr}
      (apart : op = .add ∨ op = .mul → ∀ l r, right ≠ .bin op l r)
      (onLeft : LeansLeft left) (onRight : LeansLeft right) : LeansLeft (.bin op left right)

namespace Normalize

open ArithEquiv.Expr

section Offers

theorem rootChain (op : AssocOp) (first second : Expr) (rest : List Expr) :
    rootOp? (leftChain op.bin first (second :: rest)) = some op := by
  obtain ⟨front, last, all⟩ := List.eq_nil_or_concat (second :: rest) |>.resolve_left (by simp)
  rw [all, List.concat_eq_append, chainSnoc]
  exact AssocOp.assocBin op

theorem offerOfRoot {op : AssocOp} {e : Expr} (root : rootOp? e = some op) :
    e.fold Offer.ofNode = .chain op (operandsFor op e).reverse := by
  unfold operandsFor
  rw [List.reverse_reverse]
  cases e with
  | bin inner left right =>
    obtain rfl := BinOp.assocIffBin.1 root
    rw [foldBin, Offer.ofNode, AssocOp.assocBin, operandsSelf]
  | flat inner first second rest =>
    cases root
    rw [foldFlat, Offer.ofNode, operandsSelf]
  | _ => cases root

/- Flattening works on offers alone, and regrouping changes none. -/
theorem regroupedOffers {a b : Expr} (same : Regrouped a b) :
    a.fold Offer.ofNode = b.fold Offer.ofNode := by
  induction same with
  | refl e => rfl
  | symm _ ih => exact ih.symm
  | trans _ _ ihf ihs => exact ihf.trans ihs
  | assoc op first second third =>
    simp only [foldBin, Offer.ofNode, AssocOp.assocBin, operandsSelf, List.append_assoc]
  | chain op first second rest =>
    have root : rootOp? (.flat op first second rest) = some op := rfl
    rw [offerOfRoot (rootChain op first second rest), offerOfRoot root, operandsForChain,
      operandsForFlat]
  | neg _ ih => rw [foldNeg, foldNeg, ih]
  | bin _ _ ihl ihr => rw [foldBin, foldBin, ihl, ihr]

end Offers

section Classes

def grouping : Setoid Expr := ⟨Regrouped, .refl, .symm, .trans⟩

def groupings : Interpretation (Quotient grouping) where
  const n := ⟦.const n⟧
  var name := ⟦.var name⟧
  neg := Quotient.map .neg fun _ _ => .neg
  bin op := Quotient.map₂ (.bin op) fun _ _ onLeft _ _ onRight => .bin onLeft onRight
  assoc op x y z := by
    induction x, y, z using Quotient.inductionOn₃ with
    | h a b c => exact Quotient.sound (.assoc op a b c)

theorem valueGroupings (e : Expr) : e.value groupings = Quotient.mk grouping e := by
  have chains : ∀ (op : AssocOp) (rest : List Expr) (first : Expr),
      groupings.chain op (Quotient.mk grouping first) (rest.map (Quotient.mk grouping)) =
        Quotient.mk grouping (leftChain op.bin first rest) := by
    intro op rest
    induction rest with
    | nil => exact fun _ => rfl
    | cons next rest ih => exact fun first => ih (.bin op.bin first next)
  induction e using Expr.byArgs with
  | const n => rfl
  | var name => rfl
  | neg arg ih => rw [valueNeg, ih]; rfl
  | bin op left right ihl ihr => rw [valueBin, ihl, ihr]; rfl
  | flat op first second rest ih =>
    have each : (second :: rest).map (value groupings) = (second :: rest).map (Quotient.mk grouping) :=
      List.map_congr_left fun e mem => ih e (List.mem_cons_of_mem _ mem)
    rw [valueFlat, ih first (by simp), each, chains]
    exact Quotient.sound (Regrouped.chain op first second rest).symm

theorem flattenOnceRegroups (e : Expr) : Regrouped (flattenOnce e) e := by
  refine Quotient.exact (s := grouping) ?_
  rw [← valueGroupings, ← valueGroupings, valueFlattenOnce]

theorem flattenAlike {a b : Expr} : flattenOnce a = flattenOnce b ↔ Regrouped a b := by
  refine ⟨fun same => ?_, fun same => congrArg Offer.expr (regroupedOffers same)⟩
  refine (flattenOnceRegroups a).symm.trans ?_
  rw [same]
  exact flattenOnceRegroups b

end Classes

section Leaning

theorem joinOperandsFor (op : AssocOp) (e : Expr) : Expr.join op (operandsFor op e) = flattenOnce e := by
  by_cases root : rootOp? e = some op
  · rw [flattenOnce, offerOfRoot root]
    simp only [Offer.expr, List.reverse_reverse]
  · rw [operandsForOther root]
    rfl

theorem operandsSome (op : AssocOp) (e : Expr) : operandsFor op e ≠ [] := by
  by_cases root : rootOp? e = some op
  · have many := (flattensWell e).many op root
    exact List.ne_nil_of_length_pos (by omega)
  · rw [operandsForOther root]
    exact List.cons_ne_nil _ _

theorem unflattenSnoc (op : AssocOp) {es : List Expr} (some : es ≠ []) (last : Expr) :
    unflattenOnce (.join op (es ++ [last])) =
      .bin op.bin (unflattenOnce (.join op es)) (unflattenOnce last) := by
  match es with
  | [e] => exact unflattenFlat op e last []
  | first :: second :: rest =>
    have whole := unflattenFlat op first second (rest ++ [last])
    rw [← List.cons_append, List.map_append, List.map_singleton, chainSnoc, ← unflattenFlat] at whole
    exact whole

theorem leansApart {right : Expr} {op : AssocOp} (leans : LeansLeft right)
    (apart : ∀ l r, right ≠ .bin op.bin l r) : rootOp? right ≠ some op := by
  intro root
  cases leans with
  | bin _ _ _ =>
    obtain rfl := BinOp.assocIffBin.1 root
    exact apart _ _ rfl
  | _ => cases root

theorem unflattenFlatten {e : Expr} (leans : LeansLeft e) : unflattenOnce (flattenOnce e) = e := by
  induction leans with
  | const n => rw [flattenConst, unflattenConst]
  | var name => rw [flattenVar, unflattenVar]
  | neg _ ih => rw [flattenNeg, unflattenNeg, ih]
  | @bin op left right apart _ onRight ihl ihr =>
    cases kind : op.assoc? with
    | none => rw [flattenOther kind, unflattenBin, ihl, ihr]
    | some assoc =>
      obtain rfl := BinOp.assocIffBin.1 kind
      have other : rootOp? right ≠ some assoc :=
        leansApart onRight (apart (by cases assoc <;> simp [AssocOp.bin]))
      rw [flattenBin, operandsForOther other, unflattenSnoc assoc (operandsSome assoc left),
        joinOperandsFor, ihl, ihr]

end Leaning

theorem groupingDecided :
    (∀ settings e r, flatten settings e = .ok r → Flattened r) ∧
    (∀ settings e r, unflatten settings e = .ok r → Unflattened r) ∧
    (∀ s t e c r, Flattened e → unflatten s e = .ok c → flatten t c = .ok r → r = e) ∧
    (∀ s t e f r, LeansLeft e → flatten s e = .ok f → unflatten t f = .ok r → r = e) ∧
    (∀ s t a b f g, flatten s a = .ok f → flatten t b = .ok g → (f = g ↔ Regrouped a b)) := by
  refine ⟨fun _ e r run => ?_, fun _ e r run => ?_, ?_, ?_, ?_⟩
  · rw [flattenRun run]
    exact flattenOnceFlattened e
  · rw [unflattenRun run]
    exact unflattenOnceUnflattened e
  · intro s t e c r flattened unflattens flattens
    rw [flattenRun flattens, unflattenRun unflattens, flattenUnflatten flattened]
  · intro s t e f r leans flattens unflattens
    rw [unflattenRun unflattens, flattenRun flattens, unflattenFlatten leans]
  · intro s t a b f g runA runB
    rw [flattenRun runA, flattenRun runB]
    exact flattenAlike

def toRight : Expr := .bin .add (.bin .mul (.var "a") (.var "b")) (.bin .add (.var "c") (.var "d"))

def toLeft : Expr := .bin .add (.bin .add (.bin .mul (.var "a") (.var "b")) (.var "c")) (.var "d")

def together : Expr := .flat .add (.flat .mul (.var "a") (.var "b") []) (.var "c") [.var "d"]

def exchanged : Expr := .bin .add (.bin .mul (.var "a") (.var "b")) (.bin .add (.var "d") (.var "c"))

theorem toLeftLeans : LeansLeft toLeft := by
  have product : LeansLeft (.bin .mul (.var "a") (.var "b")) := .bin nofun (.var _) (.var _)
  exact .bin nofun (.bin nofun product (.var _)) (.var _)

theorem groupingDecidedThree :
    (flatten {} toRight = .ok together ∧ Flattened together) ∧
    (unflatten {} together = .ok toLeft ∧ Unflattened toLeft) ∧
    (∀ r, flatten {} toLeft = .ok r → r = together) ∧
    (∀ r, unflatten {} together = .ok r → r = toLeft) ∧
    Regrouped toRight toLeft ∧ ¬Regrouped exchanged toLeft := by
  have fromRight : flatten {} toRight = .ok together := by decide +kernel
  have fromLeft : flatten {} toLeft = .ok together := by decide +kernel
  have back : unflatten {} together = .ok toLeft := by decide +kernel
  obtain ⟨flattens, unflattens, again, leftAgain, decided⟩ := groupingDecided
  have flat := flattens {} toRight together fromRight
  have other : flatten {} exchanged = .ok (flattenOnce exchanged) := by decide +kernel
  refine ⟨⟨fromRight, flat⟩, ⟨back, unflattens {} together toLeft back⟩, ?_, ?_, ?_, ?_⟩
  · exact fun r run => again {} {} together toLeft r flat back run
  · exact fun r run => leftAgain {} {} toLeft together r toLeftLeans fromLeft run
  · exact (decided {} {} toRight toLeft together together fromRight fromLeft).1 rfl
  · intro same
    have alike := (decided {} {} exchanged toLeft _ _ other fromLeft).2 same
    exact absurd alike (by decide +kernel)

end Normalize

end ArithEquiv
