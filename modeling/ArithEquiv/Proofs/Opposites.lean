import ArithEquiv.Proofs.Integers
import ArithEquiv.Proofs.Regrouping
import ArithEquiv.Proofs.Spelling
import ArithEquiv.Proofs.Uncancelled

/-! A tree and its opposite in one sum. Where constants are written out, multiplying out gives every
term twice, once with a further factor minus one, and of both the other factors stand in one order.
So the signed terms cancel in pairs. Where constants are combined a negative coefficient is put in
front of the factors while a positive one stays in its place, and the pair is not found. -/
namespace ArithEquiv

theorem constUnordered {e : Expr} {n : Int} (same : e.unordered = .const n) : e = .const n := by
  cases e with
  | const m => cases same; rfl
  | bin op _ _ => cases op <;> cases same
  | flat op first second rest =>
    rw [Expr.unorderedFlat] at same
    cases op <;> cases same
  | _ => cases same

theorem permFew {α : Type u} {xs ys : List α} (perm : xs.Perm ys) (few : xs.length ≤ 1) :
    xs = ys := by
  match xs with
  | [] => exact perm.nil_eq
  | [x] => exact List.singleton_perm.1 perm
  | _ :: _ :: _ => simp only [List.length_cons] at few; omega

namespace Normalize

open ArithEquiv.Expr Spelling

noncomputable def minusOne : ℕ := Unordered.code (.const (-1))

theorem codeConst (n : Int) (e : Expr) :
    e.unordered.code = (Unordered.const n).code ↔ e.isConst n = true := by
  constructor
  · intro same
    rw [constUnordered (Unordered.codeInjective same)]
    exact beq_self_eq_true (some n)
  · intro found
    rw [isConstEq found]
    rfl

section Factors

variable {e : Expr}

theorem factorCodes (flattened : Flattened e) :
    e.unordered.parts .mul = ((spliced .mul e).map fun f => f.unordered.code : List ℕ) := by
  by_cases product : rootOp? e = some .mul
  · cases flattened with
    | flat each apart =>
      cases product
      rw [unorderedFlat, Unordered.partsGather]
      exact codesOfOperands each apart
    | bin other _ _ => cases other.symm.trans product
    | _ => cases product
  · rw [partsApart flattened product]
    cases e with
    | flat op first second rest =>
      cases op with
      | add => rfl
      | mul => exact absurd rfl product
    | _ => rfl

theorem spellingFactors (e : Expr) :
    e.spelling = Spelling.interpretation.product ((spliced .mul e).map spelling) := by
  have alone : e.spelling = Spelling.interpretation.product ([e].map spelling) :=
    (crossOne e.spelling).symm
  cases e with
  | flat op first second rest =>
    cases op with
    | add => exact alone
    | mul => exact signLaws.valueJoin (first :: second :: rest)
  | _ => exact alone

def signless (e : Expr) : List Expr := (spliced .mul e).filter fun f => !f.isConst (-1)

def negated (e : Expr) : Bool := (spliced .mul e).countP (·.isConst (-1)) % 2 = 1

theorem spellingSign (e : Expr) : e.spelling =
    if negated e then (Spelling.interpretation.product ((signless e).map spelling)).map opposite
    else Spelling.interpretation.product ((signless e).map spelling) := by
  refine (spellingFactors e).trans ((signLaws.signApart (spliced .mul e)).trans ?_)
  rcases Nat.mod_two_eq_zero_or_one ((spliced .mul e).countP (·.isConst (-1))) with even | odd
  · rw [if_pos even, if_neg (by simp [negated, even])]
    exact oneCross _
  · rw [if_neg (by omega), if_pos (by simp [negated, odd])]
    exact oppositeCross _

noncomputable def reduced (codes : Multiset ℕ) : Bool × Multiset ℕ :=
  (codes.count minusOne % 2 = 1, codes.filter (· ≠ minusOne))

theorem reducedCons (codes : Multiset ℕ) :
    reduced (minusOne ::ₘ codes) = opposite (reduced codes) := by
  have parity : decide ((codes.count minusOne + 1) % 2 = 1) = !decide (codes.count minusOne % 2 = 1) := by
    rcases Nat.mod_two_eq_zero_or_one (codes.count minusOne) with even | odd
    · simp [even, show (codes.count minusOne + 1) % 2 = 1 by omega]
    · simp [odd, show (codes.count minusOne + 1) % 2 = 0 by omega]
  rw [reduced, Multiset.filter_cons_of_neg _ (by simp), Multiset.count_cons_self, parity]
  rfl

theorem reducedFactors (flattened : Flattened e) : reduced (e.unordered.parts .mul) =
    (negated e, (((signless e).map fun f => f.unordered.code : List ℕ) : Multiset ℕ)) := by
  have sign : (fun f : Expr => f.unordered.code == minusOne) = fun f => f.isConst (-1) :=
    funext fun f => Bool.eq_iff_iff.2 (beq_iff_eq.trans (codeConst (-1) f))
  have other : (fun f : Expr => decide (f.unordered.code ≠ minusOne)) = fun f => !f.isConst (-1) := by
    funext f
    rw [decide_not, ← congrFun sign f]
    rfl
  rw [factorCodes flattened, reduced, Multiset.coe_count, Multiset.filter_coe, List.count_eq_countP,
    List.countP_map, List.filter_map, negated, signless, ← sign, ← other]
  rfl

end Factors

section Terms

variable {hash : NodeHash} {known : List Expr} {x y : Expr}

theorem splicedSettled (op : AssocOp) (settled : Settled hash x) :
    (∀ f ∈ spliced op x,
      Settled hash f ∧ ∀ inner, ∀ t ∈ f.operandsOf inner, t ∈ x.operandsOf inner) ∧
      (spliced op x).Pairwise fun a b => before hash a b := by
  have alone : (∀ f ∈ [x],
      Settled hash f ∧ ∀ inner, ∀ t ∈ f.operandsOf inner, t ∈ x.operandsOf inner) ∧
      [x].Pairwise fun a b => before hash a b :=
    ⟨by simpa using settled, List.pairwise_singleton _ _⟩
  cases x with
  | flat root first second rest =>
    by_cases same : root = op
    · subst same
      have drawn : spliced root (.flat root first second rest) = first :: second :: rest :=
        if_pos rfl
      rw [drawn]
      refine ⟨fun f mem => ⟨(settledOperand settled f mem).1, fun _ t => operandsOfOperand mem⟩, ?_⟩
      cases settled.ordered root with
      | flat sorted _ => exact sorted trivial rfl
    · have whole : spliced op (.flat root first second rest) = [.flat root first second rest] :=
        if_neg same
      rwa [whole]
  | _ => exact alone

theorem factorKnown (several : 2 ≤ (spliced .mul x).length) :
    ∀ f ∈ spliced .mul x, f ∈ x.operandsOf .mul := by
  have alone : (spliced .mul x).length ≠ 1 := by omega
  cases x with
  | flat op first second rest =>
    cases op with
    | add => exact absurd rfl alone
    | mul => exact fun f => operandsOfRoot
  | _ => exact absurd rfl alone

theorem factorsUnique (kept : Expr → Bool) (apart : NoCollisions hash known)
    (settledX : Settled hash x) (settledY : Settled hash y)
    (withinX : ∀ op, ∀ t ∈ x.operandsOf op, t ∈ known)
    (withinY : ∀ op, ∀ t ∈ y.operandsOf op, t ∈ known)
    (codes : (((spliced .mul x).filter kept).map fun f => f.unordered.code).Perm
      (((spliced .mul y).filter kept).map fun f => f.unordered.code)) :
    (spliced .mul x).filter kept = (spliced .mul y).filter kept := by
  obtain ⟨partsX, sortedX⟩ := splicedSettled .mul settledX
  obtain ⟨partsY, sortedY⟩ := splicedSettled .mul settledY
  have perm : ((spliced .mul x).filter kept).Perm ((spliced .mul y).filter kept) := by
    refine permOfMapPerm codes fun f memX g memY same => ?_
    obtain ⟨settledF, insideF⟩ := partsX f (List.mem_filter.1 memX).1
    obtain ⟨settledG, insideG⟩ := partsY g (List.mem_filter.1 memY).1
    refine unorderedInjective settledF settledG (fun op => apart.part fun t mem => ?_)
      (Unordered.codeInjective same)
    exact (List.mem_append.1 mem).elim (fun mem => withinX op t (insideF op t mem))
      fun mem => withinY op t (insideG op t mem)
  have shorter : ∀ es : List Expr, (es.filter kept).length ≤ es.length :=
    fun es => List.filter_sublist.length_le
  have length := perm.length_eq
  by_cases few : ((spliced .mul x).filter kept).length ≤ 1
  · exact permFew perm few
  · refine sortedUnique perm (apart.part fun t mem => ?_) (sortedX.sublist List.filter_sublist)
      (sortedY.sublist List.filter_sublist)
    have severalX := shorter (spliced .mul x)
    have severalY := shorter (spliced .mul y)
    rcases List.mem_append.1 mem with mem | mem
    · exact withinX .mul t (factorKnown (by omega) t (List.mem_filter.1 mem).1)
    · exact withinY .mul t (factorKnown (by omega) t (List.mem_filter.1 mem).1)

theorem opposedSpelling (sameFactors : signless x = signless y) (signs : negated x = !negated y) :
    x.spelling = y.spelling.map opposite := by
  rw [spellingSign x, spellingSign y, sameFactors, signs]
  cases negated y with
  | true => simp [Function.comp_def, oppositeTwice]
  | false => simp

theorem spellingBalanced {first second : Expr} {rest : List Expr} {half : Multiset (Multiset ℕ)}
    (apart : NoCollisions hash known) (settled : Settled hash (.flat .add first second rest))
    (within : ∀ op, ∀ t ∈ (Expr.flat .add first second rest).operandsOf op, t ∈ known)
    (twice : ((first :: second :: rest).map fun e => e.unordered.parts .mul : List (Multiset ℕ)) =
      half + half.map fun m => minusOne ::ₘ m) :
    ((Expr.flat .add first second rest).spelling.map opposite).Perm
      (Expr.flat .add first second rest).spelling := by
  have terms := fun e mem => (settledOperand settled e mem).1
  have inside : ∀ e ∈ first :: second :: rest, ∀ op, ∀ t ∈ e.operandsOf op, t ∈ known :=
    fun e mem op t inner => within op t (operandsOfOperand mem inner)
  have codes : ((first :: second :: rest).map fun e => reduced (e.unordered.parts .mul)).Perm
      ((first :: second :: rest).map fun e => opposite (reduced (e.unordered.parts .mul))) := by
    have half' := congrArg (Multiset.map reduced) twice
    have turned := congrArg (Multiset.map opposite) half'
    simp only [Multiset.map_coe, Multiset.map_add, Multiset.map_map, List.map_map, Function.comp_def,
      reducedCons, oppositeTwice] at half' turned
    refine Multiset.coe_eq_coe.1 (half'.trans (Eq.trans ?_ turned.symm))
    exact add_comm _ _
  have spellings := permDetermined (g := fun e : Expr => e.spelling)
    (h := fun e : Expr => e.spelling.map opposite) codes fun e mem f mem' same => by
      have flattened := (terms e mem).flattened
      have flattened' := (terms f mem').flattened
      rw [reducedFactors flattened, reducedFactors flattened'] at same
      obtain ⟨signs, factors⟩ := Prod.mk.inj same
      exact opposedSpelling (factorsUnique _ apart (terms e mem) (terms f mem') (inside e mem)
        (inside f mem') (Multiset.coe_eq_coe.1 factors)) signs
  rw [spellingSum, List.map_flatMap, List.flatMap_def, List.flatMap_def]
  exact spellings.symm.flatten

end Terms

section Cancelling

def swept (t : Bool × List Expr) : Signed :=
  if t.1 then .minus ((join .mul t.2).bottomUp cancelNode)
  else .plus ((join .mul t.2).bottomUp cancelNode)

theorem productReading {factors : List Expr} (atoms : ∀ f ∈ factors, kind f = .atom) :
    Signed.ofExpr ((join .mul factors).bottomUp cancelNode) =
      .plus ((join .mul factors).bottomUp cancelNode) := by
  match factors with
  | [] =>
    show Signed.ofExpr ((Expr.const 1).bottomUp cancelNode) = .plus ((Expr.const 1).bottomUp cancelNode)
    rw [bottomUpConst]
    rfl
  | [f] =>
    show Signed.ofExpr (f.bottomUp cancelNode) = .plus (f.bottomUp cancelNode)
    rcases atomKind (atoms f (by simp)) with ⟨name, rfl⟩ | ⟨left, right, rfl⟩
    · rw [bottomUpVar]
      rfl
    · rw [bottomUpBin]
      rfl
  | f :: g :: more =>
    show Signed.ofExpr ((Expr.flat .mul f g more).bottomUp cancelNode) =
      .plus ((Expr.flat .mul f g more).bottomUp cancelNode)
    rw [bottomUpFlat]
    rfl

theorem termReading {t : Bool × List Expr} (atoms : ∀ f ∈ t.2, kind f = .atom) :
    Signed.ofExpr ((Spelling.term t).bottomUp cancelNode) = swept t := by
  obtain ⟨against, factors⟩ := t
  cases against with
  | false => exact productReading atoms
  | true =>
    cases factors with
    | nil =>
      have one : (join .mul []).bottomUp cancelNode = .const 1 := bottomUpConst _ _
      show Signed.ofExpr ((Expr.const (-1)).bottomUp cancelNode) = .minus ((join .mul []).bottomUp cancelNode)
      rw [bottomUpConst, one]
      rfl
    | cons f rest =>
      show Signed.ofExpr ((Expr.neg (join .mul (f :: rest))).bottomUp cancelNode) = _
      rw [bottomUpNeg]
      rfl

theorem balancedCancels {ts : Spelling} (atoms : ∀ t ∈ ts, ∀ f ∈ t.2, kind f = .atom)
    (balanced : (ts.map opposite).Perm ts) : (Spelling.tree ts).bottomUp cancelNode = .const 0 := by
  match ts with
  | [] => exact bottomUpConst _ _
  | [t] =>
    have same : opposite t = t := List.singleton_perm_singleton.1 balanced
    have sign : (!t.1) = t.1 := congrArg Prod.fst same
    cases h : t.1 <;> rw [h] at sign <;> cases sign
  | s :: t :: more =>
    have readings : ((s :: t :: more).map fun t => (Spelling.term t).bottomUp cancelNode).map
        Signed.ofExpr = (s :: t :: more).map swept := by
      rw [List.map_map]
      exact List.map_congr_left fun t mem => termReading (atoms t mem)
    have turned : ∀ t, (swept (opposite t)).minus? = (swept t).plus? := by
      rintro ⟨against, factors⟩
      cases against <;> rfl
    have none : cancelled ((s :: t :: more).map fun t => (Spelling.term t).bottomUp cancelNode) = [] := by
      refine everythingCancels ?_
      have halves := balanced.filterMap (Signed.minus? ∘ swept)
      rw [List.filterMap_map] at halves
      rw [readings, List.filterMap_map, List.filterMap_map]
      refine halves.symm.trans (List.Perm.of_eq (List.filterMap_congr fun t _ => turned t))
    have tree : Spelling.tree (s :: t :: more) =
        .flat .add (Spelling.term s) (Spelling.term t) (more.map Spelling.term) := rfl
    rw [tree, bottomUpFlat, List.map_map]
    show Expr.join .add (cancelled _) = _
    exact congrArg (join .add) none

end Cancelling

section Runs

variable {settings : Settings} {a start r : Expr}

theorem crossFactor (factor : ℕ) (x : Ledger) :
    Ledger.cross {{factor}} x = x.map fun m => factor ::ₘ m := by
  rw [Ledger.cross, Multiset.singleton_bind]
  rfl

structure Outspread (settings : Settings) (start terms o : Expr) : Prop where
  spells : terms.spelling = o.spelling
  ledger : o.ledger = start.ledger
  settled : Settled settings.hash o
  shaped : Shaped .mild o
  sorted : ∀ op, ∀ t ∈ o.operandsOf op, t ∈ sortedDistributing settings start

theorem outspread (expand : settings.constants = .expand) {terms : Expr}
    (written : WrittenIn (plainVocabulary settings True) start)
    (run : signed settings start = .ok terms) : ∃ o, Outspread settings start terms o := by
  obtain ⟨products, flat, ordered, multiplied, flattened, sorted, kept⟩ := signLaws.signed run
  obtain ⟨o, _, flattens, settled, within⟩ := distributedSettled expand multiplied
  obtain rfl : flat = o := (flattenRun flattened).trans flattens
  obtain rfl : ordered = flat := (orderProductsRun sorted).trans (orderOnceFixed (settled.ordered .mul))
  have shaped := distributedShaped multiplied written
  rw [flattens] at shaped
  refine ⟨ordered, kept, ?_, settled, shaped, within⟩
  rw [distributedLedger expand multiplied, ← flattens, Expr.ledger, valueFlattenOnce]
  rfl

theorem signedBalanced (expand : settings.constants = .expand) {half : Ledger} {terms : Expr}
    (written : WrittenIn (plainVocabulary settings True) start)
    (twice : start.ledger = half + Ledger.cross {{minusOne}} half)
    (run : signed settings start = .ok terms)
    (apart : NoCollisions settings.hash (sortedDistributing settings start)) :
    (terms.spelling.map opposite).Perm terms.spelling := by
  obtain ⟨o, spread⟩ := outspread expand written run
  have ledgers := spread.ledger
  rw [twice, crossFactor] at ledgers
  have several : kind o = .sum := by
    by_contra term
    have one := congrArg Multiset.card
      (((shapedReadOff id spread.shaped).term term).1.symm.trans ledgers)
    rw [Multiset.card_add, Multiset.card_map, Multiset.card_singleton] at one
    omega
  rw [spread.spells]
  cases spread.shaped with
  | sum terms _ each =>
    rw [ledgerTerms terms fun e mem => shapedReadOff id (each e mem)] at ledgers
    exact spellingBalanced apart spread.settled spread.sorted ledgers
  | _ => cases several

theorem signedVanishes (expand : settings.constants = .expand) {half : Ledger} {terms : Expr}
    (written : WrittenIn (plainVocabulary settings True) start)
    (twice : start.ledger = half + Ledger.cross {{minusOne}} half)
    (run : signed settings start = .ok terms)
    (apart : NoCollisions settings.hash (sortedDistributing settings start)) :
    terms.bottomUp cancelNode = .const 0 := by
  have units : ∀ n, { plainVocabulary settings True with neg := True }.const n →
      n = 0 ∨ n = 1 ∨ n = -1 := fun _ known => known expand
  have spelled := shapedSpelled units (signedShaped run written) (signedWritten run written)
  have cancels := balancedCancels (spellingAtoms terms)
    (signedBalanced expand written twice run apart)
  rwa [spelled.whole] at cancels

theorem cancelOppositesZero {terms left : Expr} (flattened : Flattened terms)
    (vanishes : terms.bottomUp cancelNode = .const 0)
    (run : cancelOpposites settings terms = .ok left) : left = .const 0 := by
  obtain ⟨flat, flattens, sweeps⟩ := bindOk.1 run
  obtain rfl : flat = terms := (flattenRun flattens).trans (flattenOnceFixed flattened)
  refine fixedPointSettles (fun stepped => ?_) (fun stepped => ?_) sweeps
  · exact (Except.ok.inj stepped).symm.trans vanishes
  · exact (Except.ok.inj stepped).symm.trans (bottomUpConst _ _)

theorem normalizedZero (expand : settings.constants = .expand) (half : Ledger)
    (twice : ∀ start, prepared settings a = .ok start →
      start.ledger = half + Ledger.cross {{minusOne}} half)
    (run : normalized settings a = .ok r)
    (apart : NoCollisions settings.hash (sortedOperands settings a)) : r = .const 0 := by
  obtain ⟨start, prepares, run⟩ := bindOk.1 run
  obtain ⟨terms, signs, run⟩ := bindOk.1 run
  obtain ⟨left, cancels, last⟩ := bindOk.1 run
  have written := preparedWritten (writtenAny a) prepares
  have vanishes := signedVanishes expand written (twice start prepares) signs
    (apart.part (sortedOperandsDistributing prepares))
  obtain rfl := cancelOppositesZero (shapedFlattened (signedShaped signs written)) vanishes cancels
  exact restructuredAlone last

end Runs

theorem oppositesVanish {settings : Settings} (expand : settings.constants = .expand) {e a r : Expr}
    {journal : Journal} (opposed : a = .bin .sub e e ∨ a = .bin .add e (.neg e))
    (run : (normalForm settings a journal).1 = .ok r)
    (apart : NoCollisions settings.hash (sortedOperands settings a)) : r = .const 0 := by
  rw [normalFormGives settings a journal] at run
  refine normalizedZero expand (e.value (Ledger.interpretation.preparing settings))
    (fun start prepares => ?_) run apart
  have means := preparedMeans Ledger.interpretation prepares
  have preparing : Ledger.interpretation.preparing settings =
      Ledger.interpretation.desugared.writingOut := by
    rw [Interpretation.preparing, expand]
  rw [ledger, means, preparing]
  rcases opposed with rfl | rfl <;> rfl

def doubled : Expr := .bin .mul (.const 2) (.var "x")

def doubledLess : Expr := .bin .sub doubled doubled

theorem oppositesVanishDoubled : ∃ r, (normalForm expanding doubledLess {}).1 = .ok r ∧
    NoCollisions expanding.hash (sortedOperands expanding doubledLess) ∧ r = .const 0 := by
  have run : (normalForm expanding doubledLess {}).1 = .ok (.const 0) := by
    rw [expandingByNumbers]
    decide +kernel
  have apart : NoCollisions expanding.hash (sortedOperands expanding doubledLess) := by
    refine .ofDistinct ?_
    rw [expandingByNumbers]
    decide +kernel
  exact ⟨.const 0, run, apart, oppositesVanish rfl (.inl rfl) run apart⟩

def doubledLeft : Expr :=
  .bin .add (.bin .mul (.var "x") (.const 2)) (.neg (.bin .mul (.var "x") (.const 2)))

/- Where constants are combined the coefficient stands behind the name, or in front of it if it was
negative. -/
theorem doubledLessRun : (normalForm {} doubledLess {}).1 = .ok doubledLeft := by
  rw [Node.digestEq]
  decide +kernel

theorem doubledLessApart : NoCollisions Node.digest (sortedOperands {} doubledLess) := by
  refine .ofDistinct ?_
  rw [Node.digestEq]
  decide +kernel

theorem coefficientsStay :
    (normalForm {} doubledLess {}).1 =
        .ok (.bin .add (.bin .mul (.var "x") (.const 2)) (.neg (.bin .mul (.var "x") (.const 2)))) ∧
      NoCollisions Node.digest (sortedOperands {} doubledLess) :=
  ⟨doubledLessRun, doubledLessApart⟩

end Normalize

end ArithEquiv
