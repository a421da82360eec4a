import ArithEquiv.Proofs.Completeness
import ArithEquiv.Proofs.Idempotence
import ArithEquiv.Proofs.Ledgers
import ArithEquiv.Proofs.NetValues
import ArithEquiv.Proofs.Opposites
import Mathlib.Algebra.MvPolynomial.Rename

/-! Names spelled otherwise. The operands of a tree stand in another order then, but the terms that
distribution gives are the same terms spelled otherwise, and so is what taking signs and cancelling
make of them, by what they come to. Where constants are written out and nothing is left to cancel,
normal forms are therefore equal under one spelling as under the other. -/
namespace ArithEquiv

def Interpretation.respelled {A : Type u} (i : Interpretation A) (spell : String → String) :
    Interpretation A :=
  { i with var := i.var ∘ spell }

def Arithmetic.respelled {A : Type u} [CommSemiring A] (a : Arithmetic A)
    (spell : String → String) : Arithmetic A :=
  { a with var := a.var ∘ spell }

def Formal.Lettering.respelled (l : Formal.Lettering) (spell : String → String) :
    Formal.Lettering :=
  { l with name := l.name ∘ spell }

theorem Formal.Lettering.Nets.respelled {l : Formal.Lettering} (nets : l.Nets)
    {spell : String → String} (injective : Function.Injective spell) :
    (l.respelled spell).Nets where
  names := nets.names.comp injective
  apart name := nets.apart (spell name)
  parts := nets.parts

namespace Expr

def renameNode (spell : String → String) : Expr → Expr
  | .var name => .var (spell name)
  | e => e

def rename (spell : String → String) (e : Expr) : Expr := e.bottomUp (renameNode spell)

section Rename

variable {spell : String → String}

theorem renameConst (n : Int) : rename spell (.const n) = .const n := bottomUpConst _ n

theorem renameVar (name : String) : rename spell (.var name) = .var (spell name) :=
  bottomUpVar _ name

theorem renameNeg (arg : Expr) : rename spell (.neg arg) = .neg (rename spell arg) :=
  bottomUpNeg _ arg

theorem renameBin (op : BinOp) (left right : Expr) :
    rename spell (.bin op left right) = .bin op (rename spell left) (rename spell right) :=
  bottomUpBin _ op left right

theorem renameFlat (op : AssocOp) (first second : Expr) (rest : List Expr) :
    rename spell (.flat op first second rest) =
      .flat op (rename spell first) (rename spell second) (rest.map (rename spell)) :=
  bottomUpFlat _ op first second rest

theorem renameChildren (e : Expr) :
    (rename spell e).children = e.children.map (rename spell) := by
  cases e with
  | const n => rw [renameConst]; rfl
  | var name => rw [renameVar]; rfl
  | neg arg => rw [renameNeg]; rfl
  | bin op left right => rw [renameBin]; rfl
  | flat op first second rest => rw [renameFlat]; rfl

theorem renameInverse {back : String → String} (inverse : Function.LeftInverse back spell)
    (e : Expr) : rename back (rename spell e) = e := by
  induction e using Expr.byArgs with
  | const n => rw [renameConst, renameConst]
  | var name => rw [renameVar, renameVar, inverse]
  | neg arg ih => rw [renameNeg, renameNeg, ih]
  | bin op left right ihl ihr => rw [renameBin, renameBin, ihl, ihr]
  | flat op first second rest ih =>
    have others : (rest.map (rename spell)).map (rename back) = rest := by
      rw [List.map_map]
      exact (List.map_congr_left fun e mem => ih e (by simp [mem])).trans (List.map_id _)
    rw [renameFlat, renameFlat, ih first (by simp), ih second (by simp), others]

theorem renameValue {A : Type u} (i : Interpretation A) (e : Expr) :
    (rename spell e).value i = e.value (i.respelled spell) := by
  induction e using Expr.byArgs with
  | const n => rw [renameConst]; rfl
  | var name => rw [renameVar]; rfl
  | neg arg ih => rw [renameNeg, valueNeg, ih]; rfl
  | bin op left right ihl ihr => rw [renameBin, valueBin, ihl, ihr]; rfl
  | flat op first second rest ih =>
    have same : ((first :: second :: rest).map (rename spell)).map (value i) =
        (first :: second :: rest).map (value (i.respelled spell)) := by
      rw [List.map_map]
      exact List.map_congr_left ih
    refine WithOne.coe_injective ?_
    rw [renameFlat, totalFlat, totalFlat, ← same]
    rfl

theorem renameRearranged {a b : Expr} (same : Rearranged a b) :
    Rearranged (rename spell a) (rename spell b) := by
  intro A i commutes
  rw [renameValue, renameValue]
  exact same A (i.respelled spell) commutes

theorem rearrangedRename (injective : Function.Injective spell) {a b : Expr}
    (same : Rearranged (rename spell a) (rename spell b)) : Rearranged a b := by
  have inverse := Function.leftInverse_invFun injective
  have back := @renameRearranged (Function.invFun spell) _ _ same
  rwa [renameInverse inverse, renameInverse inverse] at back

theorem renameDivisionFree {e : Expr} (free : e.DivisionFree) :
    (rename spell e).DivisionFree := by
  induction free with
  | const n => rw [renameConst]; exact .const n
  | var name => rw [renameVar]; exact .var _
  | neg _ ih => rw [renameNeg]; exact .neg ih
  | bin other _ _ ihl ihr => rw [renameBin]; exact .bin other ihl ihr
  | @flat op first second rest _ ih =>
    rw [renameFlat]
    refine .flat fun t mem => ?_
    rw [← List.map_cons, ← List.map_cons] at mem
    obtain ⟨e, member, rfl⟩ := List.mem_map.1 mem
    exact ih e member

theorem renamePolynomial (e : Expr) :
    (rename spell e).polynomial = MvPolynomial.rename spell e.polynomial := by
  refine (renameValue polynomials.interpretation e).trans (Eq.symm ?_)
  refine valueMap _ _ (fun n => map_intCast _ n) (fun name => MvPolynomial.rename_X spell name)
    (fun x => map_neg _ x) (fun op x y => ?_) e
  cases op with
  | add => exact map_add _ x y
  | sub => exact map_sub _ x y
  | mul => exact map_mul _ x y
  | div => exact map_zero _

end Rename

end Expr

namespace Normalize

open ArithEquiv.Expr Formal Lettering

section Shapes

variable {spell : String → String} {rules : Rules} {e : Expr}

theorem renameFlattened (flattened : Flattened e) : Flattened (rename spell e) := by
  have root : ∀ t, rootOp? (rename spell t) = rootOp? t := by
    intro t
    cases t with
    | const n => rw [renameConst]
    | var name => rw [renameVar]; rfl
    | neg arg => rw [renameNeg]; rfl
    | bin op left right => rw [renameBin]; rfl
    | flat op first second rest => rw [renameFlat]; rfl
  induction flattened with
  | const n => rw [renameConst]; exact .const n
  | var name => rw [renameVar]; exact .var _
  | neg _ ih => rw [renameNeg]; exact .neg ih
  | bin other _ _ ihl ihr => rw [renameBin]; exact .bin other ihl ihr
  | @flat op first second rest _ apart ih =>
    have operand : ∀ t ∈ rename spell first :: rename spell second :: rest.map (rename spell),
        ∃ e ∈ first :: second :: rest, rename spell e = t :=
      fun t mem => List.mem_map.1 (by rwa [← List.map_cons, ← List.map_cons] at mem)
    rw [renameFlat]
    refine .flat (fun t mem => ?_) fun t mem => ?_
    · obtain ⟨e, member, rfl⟩ := operand t mem
      exact ih e member
    · obtain ⟨e, member, rfl⟩ := operand t mem
      rw [root]
      exact apart e member

theorem renameShaped (shaped : Shaped rules e) : Shaped rules (rename spell e) := by
  have same : outline rules (rename spell e) = outline rules e := renameValue _ e
  obtain ⟨sound, closed⟩ := shapedSound shaped
  rw [← same] at sound closed
  exact soundShaped (renameFlattened (shapedFlattened shaped)) sound closed

theorem renameClear {l : Lettering} (clear : Clear (l.respelled spell) e) :
    Clear l (rename spell e) := by
  induction clear with
  | @node e _ value unopposed _ ih =>
    refine .node ((renameValue l.arithmetic.interpretation e).trans value) unopposed fun t mem => ?_
    rw [renameChildren] at mem
    obtain ⟨child, member, rfl⟩ := List.mem_map.1 mem
    exact ih child member

end Shapes

section Runs

variable {settings : Settings} {spell : String → String} {a b e r r' : Expr}

theorem preparingRespelled {A : Type u} (i : Interpretation A) :
    (i.respelled spell).preparing settings = (i.preparing settings).respelled spell := by
  have ones : ∀ n, (ones n).value (i.respelled spell).desugared = (ones n).value i.desugared := by
    intro n
    induction n with
    | zero => rfl
    | succ n ih => rw [Normalize.ones, valueBin, ih]; rfl
  have consts : (i.respelled spell).desugared.writingOut.const = i.desugared.writingOut.const := by
    funext n
    unfold Interpretation.writingOut
    dsimp only
    split
    · exact congrArg i.desugared.neg (ones _)
    · exact ones _
  unfold Interpretation.preparing
  cases settings.constants with
  | fold => rfl
  | expand =>
    exact congrArg (fun c => { i.desugared.writingOut.respelled spell with const := c }) consts

theorem renameProducts (expand : settings.constants = .expand)
    {start start' products products' : Expr} (prepares : prepared settings e = .ok start)
    (prepares' : prepared settings (rename spell e) = .ok start')
    (multiplied : distributed settings start = .ok products)
    (multiplied' : distributed settings start' = .ok products') :
    Rearranged (rename spell (flattenOnce products)) (flattenOnce products') := by
  have shaped := @renameShaped spell _ _
    (distributedShaped multiplied (preparedWritten (writtenAny e) prepares))
  have shaped' := distributedShaped multiplied' (preparedWritten (writtenAny _) prepares')
  have ledgers : (rename spell (flattenOnce products)).ledger = (flattenOnce products').ledger := by
    calc (rename spell (flattenOnce products)).ledger
        = products.value (Ledger.interpretation.respelled spell) := by
          rw [ledger, renameValue, valueFlattenOnce]
      _ = start.value (Ledger.interpretation.respelled spell) :=
          (@distributedLedgerIn _ _ _ (Ledger.interpretation.respelled spell) rfl expand
            multiplied).symm
      _ = (rename spell e).value (Ledger.interpretation.preparing settings) := by
          rw [preparedMeans _ prepares, preparingRespelled, renameValue]
      _ = start'.ledger := (preparedMeans _ prepares').symm
      _ = (flattenOnce products').ledger := by
          rw [distributedLedger expand multiplied', ledger, ledger, valueFlattenOnce]
  refine unorderedRearranged (shapedFlattened shaped) (shapedFlattened shaped') ?_
  rw [← (shapedReadOff id shaped).whole, ledgers, (shapedReadOff id shaped').whole]

section Course

variable {start terms left combined o start' terms' left' combined' o' s s' : Expr}

theorem Course.products (course : Course settings e start terms left combined o r)
    (expand : settings.constants = .expand) : ∃ products,
      distributed settings start = .ok products ∧
        ∀ {A : Type} [CommSemiring A] (a : Arithmetic A), (∀ x, x + a.const (-1) * x = 0) →
          a.value (flattenOnce r) = a.value products := by
  obtain ⟨products, multiplied, kept⟩ := signedProducts course.signs
  refine ⟨products, multiplied, fun a opposite => ?_⟩
  have last := restructuredRearranged expand course.restructures _ a.interpretation a.commutative
  calc a.value (flattenOnce r) = a.value r := valueFlattenOnce _ r
    _ = a.value left := last
    _ = a.value terms := cancelOppositesKeeps opposite course.cancels
    _ = a.value products := kept a

theorem Course.clear (course : Course settings e start terms left combined o r)
    (expand : settings.constants = .expand) {l : Lettering} (nets : l.Nets) (all : FullyCancelled r)
    (apart : NoCollisions settings.hash (sortedOperands settings e)) : Clear l (flattenOnce r) := by
  have written : WrittenIn { plainVocabulary settings True with neg := True } (flattenOnce r) := by
    rw [WrittenIn, valueFlattenOnce]
    exact course.written
  have units : Vocabulary.OnlyUnits { plainVocabulary settings True with neg := True } :=
    fun n known => known expand
  obtain ⟨settled, flat⟩ := course.settled
  have apartIn := course.apartIn course apart (fun _ => id) fun _ => id
  rw [← flat] at settled apartIn
  exact settledClear nets units (normalSigned course.shaped) written settled apartIn all

theorem Course.renamed (course : Course settings e start terms left combined o r)
    (course' : Course settings (rename spell e) start' terms' left' combined' o' r')
    (expand : settings.constants = .expand) (injective : Function.Injective spell)
    (all : FullyCancelled r) (all' : FullyCancelled r')
    (apart : NoCollisions settings.hash (sortedOperands settings e))
    (apart' : NoCollisions settings.hash (sortedOperands settings (rename spell e))) :
    Rearranged (rename spell o) o' := by
  obtain ⟨products, multiplied, kept⟩ := course.products expand
  obtain ⟨products', multiplied', kept'⟩ := course'.products expand
  have rearranged := renameProducts expand course.prepares course'.prepares multiplied multiplied'
  have values : net.value (rename spell (flattenOnce r)) = net.value (flattenOnce r') := by
    calc net.value (rename spell (flattenOnce r))
        = (net.respelled spell).value (flattenOnce r) := renameValue net.interpretation _
      _ = (net.respelled spell).value products := kept _ netOpposite
      _ = net.value (rename spell (flattenOnce products)) := by
          rw [Arithmetic.value, ← valueFlattenOnce]
          exact (renameValue net.interpretation _).symm
      _ = net.value (flattenOnce products') := rearranged _ net.interpretation net.commutative
      _ = net.value products' := valueFlattenOnce _ products'
      _ = net.value (flattenOnce r') := (kept' net netOpposite).symm
  have clear := renameClear (course.clear expand (nettingNets.respelled injective) all apart)
  have clear' := course'.clear expand nettingNets all' apart'
  rw [← collectNetting, ← collectNetting] at values
  rw [← course.settled.2, ← course'.settled.2]
  exact clearRearranged nettingNets (renameShaped (normalSigned course.shaped))
    (normalSigned course'.shaped) clear clear' values

end Course

theorem polynomialSpellings (expand : settings.constants = .expand)
    (injective : Function.Injective spell) (freeA : a.DivisionFree) (freeB : b.DivisionFree)
    {s s' : Expr} (runA : normalized settings a = .ok r) (runB : normalized settings b = .ok s)
    (runA' : normalized settings (rename spell a) = .ok r')
    (runB' : normalized settings (rename spell b) = .ok s')
    (apart : NoCollisions settings.hash (sortedOperands settings a ++ sortedOperands settings b))
    (apart' : NoCollisions settings.hash (sortedOperands settings (rename spell a) ++
      sortedOperands settings (rename spell b))) : r = s ↔ r' = s' := by
  have decided := normalizedPolynomial expand freeA freeB runA runB
  have decided' := normalizedPolynomial expand (renameDivisionFree freeA) (renameDivisionFree freeB)
    runA' runB'
  have polynomials : a.polynomial = b.polynomial ↔
      (rename spell a).polynomial = (rename spell b).polynomial := by
    rw [renamePolynomial, renamePolynomial]
    exact (MvPolynomial.rename_injective spell injective).eq_iff.symm
  exact (Iff.intro decided.1 (decided.2 apart)).trans
    (polynomials.trans (Iff.intro decided'.1 (decided'.2 apart')).symm)

theorem cancelledSpellings (expand : settings.constants = .expand)
    (injective : Function.Injective spell) {s s' : Expr} (runA : normalized settings a = .ok r) (runB : normalized settings b = .ok s)
    (runA' : normalized settings (rename spell a) = .ok r')
    (runB' : normalized settings (rename spell b) = .ok s')
    (all : ∀ t ∈ [r, s, r', s'], FullyCancelled t)
    (apart : NoCollisions settings.hash (sortedOperands settings a ++ sortedOperands settings b))
    (apart' : NoCollisions settings.hash (sortedOperands settings (rename spell a) ++
      sortedOperands settings (rename spell b))) : r = s ↔ r' = s' := by
  obtain ⟨_, _, _, _, o, courseA⟩ := courseOf runA
  obtain ⟨_, _, _, _, q, courseB⟩ := courseOf runB
  obtain ⟨_, _, _, _, o', courseA'⟩ := courseOf runA'
  obtain ⟨_, _, _, _, q', courseB'⟩ := courseOf runB'
  have onA := courseA.renamed courseA' expand injective (all r (by simp)) (all r' (by simp))
    (apart.part fun _ => List.mem_append_left _) (apart'.part fun _ => List.mem_append_left _)
  have onB := courseB.renamed courseB' expand injective (all s (by simp)) (all s' (by simp))
    (apart.part fun _ => List.mem_append_right _) (apart'.part fun _ => List.mem_append_right _)
  constructor
  · intro same
    have flat : o = q :=
      courseA.settled.2.symm.trans ((congrArg flattenOnce same).trans courseB.settled.2)
    rw [flat] at onA
    exact courseA'.unique courseB' apart' (onA.symm.trans onB)
  · intro same
    have flat : o' = q' :=
      courseA'.settled.2.symm.trans ((congrArg flattenOnce same).trans courseB'.settled.2)
    rw [flat] at onA
    exact courseA.unique courseB apart (rearrangedRename injective (onA.trans onB.symm))

theorem spellingsAgree (expand : settings.constants = .expand)
    (injective : Function.Injective spell) {s s' : Expr} {first second third fourth : Journal}
    (runA : (normalForm settings a first).1 = .ok r)
    (runB : (normalForm settings b second).1 = .ok s)
    (runA' : (normalForm settings (rename spell a) third).1 = .ok r')
    (runB' : (normalForm settings (rename spell b) fourth).1 = .ok s')
    (reduced : a.DivisionFree ∧ b.DivisionFree ∨ ∀ t ∈ [r, s, r', s'], FullyCancelled t)
    (apart : NoCollisions settings.hash (sortedOperands settings a ++ sortedOperands settings b))
    (apart' : NoCollisions settings.hash (sortedOperands settings (rename spell a) ++
      sortedOperands settings (rename spell b))) : r = s ↔ r' = s' := by
  rw [normalFormGives settings _ _] at runA runB runA' runB'
  rcases reduced with ⟨freeA, freeB⟩ | all
  · exact polynomialSpellings expand injective freeA freeB runA runB runA' runB' apart apart'
  · exact cancelledSpellings expand injective runA runB runA' runB' all apart apart'

end Runs

def exchangeNames : String → String := Equiv.swap "x" "z"

def sumQuotient : Expr := .bin .div (.bin .add (.var "x") (.var "z")) (.var "y")

def quotientSum : Expr :=
  .bin .add (.bin .div (.var "x") (.var "y")) (.bin .div (.var "z") (.var "y"))

def quotientsInOrder : Expr :=
  .bin .add (.bin .div (.var "z") (.var "y")) (.bin .div (.var "x") (.var "y"))

theorem spellingsAgreeQuotient : ∃ r s r' s', Function.Injective exchangeNames ∧
    (normalForm expanding sumQuotient {}).1 = .ok r ∧
    (normalForm expanding quotientSum {}).1 = .ok s ∧
    (normalForm expanding (rename exchangeNames sumQuotient) {}).1 = .ok r' ∧
    (normalForm expanding (rename exchangeNames quotientSum) {}).1 = .ok s' ∧
    (∀ t ∈ [r, s, r', s'], FullyCancelled t) ∧
    NoCollisions expanding.hash
      (sortedOperands expanding sumQuotient ++ sortedOperands expanding quotientSum) ∧
    NoCollisions expanding.hash (sortedOperands expanding (rename exchangeNames sumQuotient) ++
      sortedOperands expanding (rename exchangeNames quotientSum)) ∧ (r = s ↔ r' = s') := by
  have injective : Function.Injective exchangeNames := (Equiv.swap "x" "z").injective
  have runA : (normalForm expanding sumQuotient {}).1 = .ok quotientsInOrder := by
    rw [expandingByNumbers]
    decide +kernel
  have runB : (normalForm expanding quotientSum {}).1 = .ok quotientsInOrder := by
    rw [expandingByNumbers]
    decide +kernel
  have runA' : (normalForm expanding (rename exchangeNames sumQuotient) {}).1 =
      .ok quotientsInOrder := by
    rw [expandingByNumbers]
    decide +kernel
  have runB' : (normalForm expanding (rename exchangeNames quotientSum) {}).1 =
      .ok quotientsInOrder := by
    rw [expandingByNumbers]
    decide +kernel
  have all : ∀ t ∈ [quotientsInOrder, quotientsInOrder, quotientsInOrder, quotientsInOrder],
      FullyCancelled t := by
    decide +kernel
  have apart : NoCollisions expanding.hash
      (sortedOperands expanding sumQuotient ++ sortedOperands expanding quotientSum) := by
    refine .ofDistinct ?_
    rw [expandingByNumbers]
    decide +kernel
  have apart' : NoCollisions expanding.hash
      (sortedOperands expanding (rename exchangeNames sumQuotient) ++
        sortedOperands expanding (rename exchangeNames quotientSum)) := by
    refine .ofDistinct ?_
    rw [expandingByNumbers]
    decide +kernel
  exact ⟨_, _, _, _, injective, runA, runB, runA', runB', all, apart, apart',
    spellingsAgree rfl injective runA runB runA' runB' (.inr all) apart apart'⟩

/- A coefficient and a name stand in the order in which cancellation looks for them under one spelling,
and in the other order under the other. -/
theorem spellingTells : Function.Injective exchangeNames ∧ ∃ r s r' s',
    (normalForm {} doubledLess {}).1 = .ok r ∧ (normalForm {} (.const 0) {}).1 = .ok s ∧
    (normalForm {} (rename exchangeNames doubledLess) {}).1 = .ok r' ∧
    (normalForm {} (rename exchangeNames (.const 0)) {}).1 = .ok s' ∧
    NoCollisions Node.digest (sortedOperands {} doubledLess ++ sortedOperands {} (.const 0)) ∧
    NoCollisions Node.digest (sortedOperands {} (rename exchangeNames doubledLess) ++
      sortedOperands {} (rename exchangeNames (.const 0))) ∧ ¬(r = s ↔ r' = s') := by
  have zero : (normalForm {} (.const 0) {}).1 = .ok (.const 0) := by
    decide +kernel
  have zero' : (normalForm {} (rename exchangeNames (.const 0)) {}).1 = .ok (.const 0) := by
    decide +kernel
  have cancelled : (normalForm {} (rename exchangeNames doubledLess) {}).1 = .ok (.const 0) := by
    rw [Node.digestEq]
    decide +kernel
  have apart : NoCollisions Node.digest
      (sortedOperands {} doubledLess ++ sortedOperands {} (.const 0)) := by
    have none : sortedOperands {} (.const 0) = [] := by decide +kernel
    rw [none, List.append_nil]
    exact doubledLessApart
  have apart' : NoCollisions Node.digest (sortedOperands {} (rename exchangeNames doubledLess) ++
      sortedOperands {} (rename exchangeNames (.const 0))) := by
    refine .ofDistinct ?_
    rw [Node.digestEq]
    decide +kernel
  exact ⟨(Equiv.swap "x" "z").injective, doubledLeft, .const 0, .const 0, .const 0, doubledLessRun,
    zero, cancelled, zero', apart, apart', fun same => nomatch same.2 rfl⟩

def overHidden : Expr :=
  .bin .mul (.var "x") (.bin .div (.var "y") (.bin .sub (.var "x") (.var "x")))

def hiddenQuotients : Expr :=
  .bin .sub overHidden (.bin .mul (.var "x") (.bin .div (.var "y") (.const 0)))

/-- Below a bar opposites may be left where constants are written out, under one spelling only. -/
example : (normalForm expanding hiddenQuotients {}).1 = .ok (.const 0) ∧
    ((normalForm expanding (rename exchangeNames hiddenQuotients) {}).1 ≠ .ok (.const 0)) := by
  rw [expandingByNumbers]
  decide +kernel

end Normalize

end ArithEquiv
