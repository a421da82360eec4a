import ArithEquiv.Proofs.PermutedSums

/-! What the terms of a tree come to once units and zeros are taken out of them. A term with a
factor zero comes to nothing, any other to its sign and its factors besides one and minus one. Trees
whose terms come to the same have, where constants are written out, the same terms left when their
signs have been taken in front, in orders that may differ. -/
namespace ArithEquiv

namespace Interpretation.SignLaws

open ArithEquiv.Expr Normalize

variable {A : Type u} {i : Interpretation A} (laws : i.SignLaws)

include laws

theorem unitsApart (es : List Expr) : i.product (es.map (value i)) =
    i.product ((es.filter fun e => !e.isConst 1).map (value i)) := by
  induction es with
  | nil => rfl
  | cons e rest ih =>
    refine (congrArg (i.bin .mul (e.value i)) ih).trans ?_
    rw [List.filter_cons]
    cases unit : e.isConst 1 with
    | true =>
      rw [isConstEq unit]
      exact laws.oneMul _
    | false => rfl

theorem zeroAbsorbs {es : List Expr} {e : Expr} (mem : e ∈ es) (none : e.isConst 0 = true) :
    i.product (es.map (value i)) = i.const 0 := by
  induction es with
  | nil => cases mem
  | cons first rest ih =>
    rcases List.mem_cons.1 mem with rfl | mem
    · rw [isConstEq none]
      exact laws.zeroMul _
    · exact (congrArg (i.bin .mul (first.value i)) (ih mem)).trans (laws.mulZero _)

end Interpretation.SignLaws

namespace Normalize

open ArithEquiv.Expr Spelling

noncomputable def unitCode : ℕ := Unordered.code (.const 1)

noncomputable def zeroCode : ℕ := Unordered.code (.const 0)

noncomputable def remainder (codes : Multiset ℕ) : Option (Bool × Multiset ℕ) :=
  if zeroCode ∈ codes then none
  else some ((reduced codes).1, (reduced codes).2.filter (· ≠ unitCode))

noncomputable def remainders (x : Ledger) : Multiset (Bool × Multiset ℕ) := x.filterMap remainder

section Codes

theorem codeApart {m n : Int} (differ : m ≠ n) :
    Unordered.code (.const m) ≠ Unordered.code (.const n) :=
  fun same => differ (Unordered.const.inj (Unordered.codeInjective same))

theorem remainderZero (codes : Multiset ℕ) : remainder (zeroCode ::ₘ codes) = none :=
  if_pos (Multiset.mem_cons_self _ _)

theorem remainderUnit (codes : Multiset ℕ) : remainder (unitCode ::ₘ codes) = remainder codes := by
  have sign : minusOne ≠ unitCode := codeApart (by decide)
  have apart : zeroCode ≠ unitCode := codeApart (by decide)
  have same : reduced (unitCode ::ₘ codes) =
      ((reduced codes).1, unitCode ::ₘ (reduced codes).2) := by
    rw [reduced, Multiset.count_cons_of_ne sign,
      Multiset.filter_cons_of_pos (p := (· ≠ minusOne)) _ sign.symm]
    rfl
  unfold remainder
  rw [same, Multiset.filter_cons_of_neg _ (by simp)]
  simp only [Multiset.mem_cons, apart, false_or]

theorem remainderMinusOne (codes : Multiset ℕ) :
    remainder (minusOne ::ₘ codes) = (remainder codes).map opposite := by
  have apart : zeroCode ≠ minusOne := codeApart (by decide)
  unfold remainder
  rw [reducedCons]
  by_cases absorbs : zeroCode ∈ codes
  · rw [if_pos absorbs, if_pos (Multiset.mem_cons_of_mem absorbs)]
    rfl
  · rw [if_neg absorbs, if_neg]
    · rfl
    · exact fun mem => (Multiset.mem_cons.1 mem).elim apart absorbs

theorem remaindersAdd (x y : Ledger) : remainders (x + y) = remainders x + remainders y :=
  Multiset.filterMap_add _ _ _

theorem remaindersFactor (factor : ℕ) (x : Ledger) : remainders (Ledger.cross {{factor}} x) =
    x.filterMap fun m => remainder (factor ::ₘ m) := by
  rw [crossFactor, remainders, Multiset.filterMap_map]
  rfl

theorem remaindersZero (x : Ledger) : remainders (Ledger.cross {{zeroCode}} x) = 0 := by
  rw [remaindersFactor]
  refine Multiset.eq_zero_of_forall_notMem fun t mem => ?_
  obtain ⟨m, _, found⟩ := (Multiset.mem_filterMap _ _).1 mem
  rw [remainderZero] at found
  cases found

theorem remaindersUnit (x : Ledger) : remainders (Ledger.cross {{unitCode}} x) = remainders x := by
  rw [remaindersFactor]
  simp only [remainderUnit]
  rfl

theorem remaindersMinusOne (x : Ledger) :
    remainders (Ledger.cross {{minusOne}} x) = (remainders x).map opposite := by
  rw [remaindersFactor, remainders, Multiset.map_filterMap]
  simp only [remainderMinusOne]

theorem remaindersNone : remainders {{zeroCode}} = 0 := by
  have alone : Ledger.cross {{zeroCode}} {0} = {{zeroCode}} := by
    rw [crossFactor, Multiset.map_singleton]
    rfl
  rw [← alone, remaindersZero]

end Codes

section Terms

variable {hash : NodeHash} {known : List Expr} {e x y : Expr}

def essential (e : Expr) : List Expr := (signless e).filter fun f => !f.isConst 1

theorem essentialEq (e : Expr) :
    essential e = (spliced .mul e).filter fun f => !f.isConst 1 && !f.isConst (-1) :=
  List.filter_filter

theorem spellingEssential (e : Expr) : e.spelling =
    if negated e then (Spelling.interpretation.product ((essential e).map spelling)).map opposite
    else Spelling.interpretation.product ((essential e).map spelling) := by
  have units : Spelling.interpretation.product ((signless e).map spelling) =
      Spelling.interpretation.product ((essential e).map spelling) :=
    signLaws.unitsApart (signless e)
  rw [spellingSign, units]

theorem spellingNothing (absorbs : (spliced .mul e).any (·.isConst 0) = true) :
    e.spelling = [] := by
  obtain ⟨f, mem, zero⟩ := List.any_eq_true.1 absorbs
  exact (spellingFactors e).trans (signLaws.zeroAbsorbs mem zero)

theorem remainderFactors (flattened : Flattened e) : remainder (e.unordered.parts .mul) =
    if (spliced .mul e).any (·.isConst 0) then none
    else some
      (negated e, (((essential e).map fun f => f.unordered.code : List ℕ) : Multiset ℕ)) := by
  have absorbs : zeroCode ∈ e.unordered.parts .mul ↔ (spliced .mul e).any (·.isConst 0) = true := by
    rw [factorCodes flattened, Multiset.mem_coe, List.mem_map, List.any_eq_true]
    exact exists_congr fun f => and_congr_right fun _ => codeConst 0 f
  have units : (((signless e).map fun f => f.unordered.code : List ℕ) : Multiset ℕ).filter
      (· ≠ unitCode) = ((essential e).map fun f => f.unordered.code : List ℕ) := by
    have other :
        (fun f : Expr => decide (f.unordered.code ≠ unitCode)) = fun f => !f.isConst 1 := by
      funext f
      rw [decide_not, ← Bool.eq_iff_iff.2 (beq_iff_eq.trans (codeConst 1 f))]
      rfl
    rw [Multiset.filter_coe, List.filter_map, essential, ← other]
    rfl
  unfold remainder
  rw [reducedFactors flattened, units]
  simp only [absorbs]

theorem spellingDetermined (apart : NoCollisions hash known) (settledX : Settled hash x)
    (settledY : Settled hash y) (withinX : ∀ op, ∀ t ∈ x.operandsOf op, t ∈ known)
    (withinY : ∀ op, ∀ t ∈ y.operandsOf op, t ∈ known) {n : Bool × Multiset ℕ}
    (onX : remainder (x.unordered.parts .mul) = some n)
    (onY : remainder (y.unordered.parts .mul) = some n) :
    x.spelling = y.spelling := by
  have read : ∀ {e}, Flattened e → remainder (e.unordered.parts .mul) = some n →
      n = (negated e, (((essential e).map fun f => f.unordered.code : List ℕ) : Multiset ℕ)) := by
    intro e flattened comes
    rw [remainderFactors flattened] at comes
    split at comes
    · cases comes
    · exact (Option.some.inj comes).symm
  obtain ⟨signs, codes⟩ := Prod.mk.inj ((read settledX.flattened onX).symm.trans
    (read settledY.flattened onY))
  have same : essential x = essential y := by
    rw [essentialEq, essentialEq] at codes ⊢
    exact factorsUnique _ apart settledX settledY withinX withinY (Multiset.coe_eq_coe.1 codes)
  rw [spellingEssential x, spellingEssential y, signs, same]

theorem spellingOfNone (flattened : Flattened e)
    (none : remainder (e.unordered.parts .mul) = none) : e.spelling = [] := by
  rw [remainderFactors flattened] at none
  split at none
  · rename_i absorbs
    exact spellingNothing absorbs
  · cases none

end Terms

section Sums

variable {settings : Settings} {start start' terms terms' o o' : Expr}

theorem spellingAddends (e : Expr) : e.spelling = (spliced .add e).flatMap spelling := by
  have alone : e.spelling = [e].flatMap spelling := (List.append_nil _).symm
  cases e with
  | flat op first second rest =>
    cases op with
    | add => exact spellingSum first second rest
    | mul => exact alone
  | _ => exact alone

theorem ledgerAddends (shaped : Shaped .mild o) :
    o.ledger = ((spliced .add o).map fun e => e.unordered.parts .mul : List (Multiset ℕ)) := by
  have alone : kind o ≠ .sum →
      o.ledger = ([o].map fun e => e.unordered.parts .mul : List (Multiset ℕ)) :=
    fun term => ((shapedReadOff id shaped).term term).1
  cases shaped with
  | sum terms _ each => exact ledgerTerms terms fun e mem => shapedReadOff id (each e mem)
  | neg allowed _ _ => exact allowed.elim
  | _ => exact alone fun found => by cases found

def alive {α : Type u} {β : Type v} (f : α → Option β) (xs : List α) : List α :=
  xs.filter fun e => (f e).isSome

section Lists

variable {α : Type u} {β : Type v} {γ : Type w} {f : α → Option β} {g : α → List γ}

theorem aliveImages (f : α → Option β) (xs : List α) :
    (alive f xs).map f = (xs.filterMap f).map some := by
  induction xs with
  | nil => rfl
  | cons e rest ih =>
    unfold alive at ih ⊢
    cases comes : f e with
    | none => rw [List.filter_cons_of_neg (by simp [comes]), List.filterMap_cons_none comes, ih]
    | some n =>
      rw [List.filter_cons_of_pos (by simp [comes]), List.filterMap_cons_some comes,
        List.map_cons, List.map_cons, ih, comes]

theorem aliveLists {xs : List α} (nothing : ∀ e ∈ xs, f e = none → g e = []) :
    xs.flatMap g = (alive f xs).flatMap g := by
  induction xs with
  | nil => rfl
  | cons e rest ih =>
    have tail := ih fun t mem => nothing t (List.mem_cons_of_mem _ mem)
    unfold alive at tail ⊢
    cases comes : f e with
    | none =>
      rw [List.filter_cons_of_neg (by simp [comes]), List.flatMap_cons,
        nothing e (by simp) comes, tail]
      rfl
    | some n =>
      rw [List.filter_cons_of_pos (by simp [comes]), List.flatMap_cons, List.flatMap_cons, tail]

theorem permFlatMap {xs ys : List α} (perm : (xs.filterMap f).Perm (ys.filterMap f))
    (nothing : ∀ e, e ∈ xs ∨ e ∈ ys → f e = none → g e = [])
    (determined : ∀ x ∈ xs, ∀ y ∈ ys, ∀ n, f x = some n → f y = some n → g x = g y) :
    (xs.flatMap g).Perm (ys.flatMap g) := by
  have images : ((alive f xs).map f).Perm ((alive f ys).map f) := by
    rw [aliveImages, aliveImages]
    exact perm.map some
  rw [aliveLists fun e mem => nothing e (.inl mem), aliveLists fun e mem => nothing e (.inr mem),
    List.flatMap_def, List.flatMap_def]
  refine (permDetermined images fun x memX y memY same => ?_).flatten
  obtain ⟨inX, comes⟩ := List.mem_filter.1 memX
  obtain ⟨n, comes⟩ := Option.isSome_iff_exists.1 comes
  exact determined x inX y (List.mem_filter.1 memY).1 n comes (same ▸ comes)

end Lists

theorem remaindersAddends (spread : Outspread settings start terms o) : remainders start.ledger =
    ((spliced .add o).filterMap fun e => remainder (e.unordered.parts .mul) :
      List (Bool × Multiset ℕ)) := by
  rw [← spread.ledger, ledgerAddends spread.shaped, remainders, Multiset.filterMap_coe,
    List.filterMap_map]
  rfl

theorem spellingsPermuted (spread : Outspread settings start terms o)
    (spread' : Outspread settings start' terms' o')
    (same : remainders start.ledger = remainders start'.ledger)
    (apart : NoCollisions settings.hash
      (sortedDistributing settings start ++ sortedDistributing settings start')) :
    terms.spelling.Perm terms'.spelling := by
  have parts := (splicedSettled .add spread.settled).1
  have parts' := (splicedSettled .add spread'.settled).1
  rw [remaindersAddends spread, remaindersAddends spread'] at same
  rw [spread.spells, spread'.spells, spellingAddends o, spellingAddends o']
  refine permFlatMap (Multiset.coe_eq_coe.1 same) (fun e mem none => ?_)
    fun x memX y memY n onX onY => ?_
  · refine spellingOfNone ?_ none
    exact mem.elim (fun mem => (parts e mem).1.flattened) fun mem => (parts' e mem).1.flattened
  · refine spellingDetermined apart (parts x memX).1 (parts' y memY).1 (fun op t mem => ?_)
      (fun op t mem => ?_) onX onY
    · exact List.mem_append_left _ (spread.sorted op t ((parts x memX).2 op t mem))
    · exact List.mem_append_right _ (spread'.sorted op t ((parts' y memY).2 op t mem))

theorem spellingEmpty (spread : Outspread settings start terms o)
    (none : remainders start.ledger = 0) : terms.spelling = [] := by
  have parts := (splicedSettled .add spread.settled).1
  rw [remaindersAddends spread, Multiset.coe_eq_zero, List.filterMap_eq_nil_iff] at none
  rw [spread.spells, spellingAddends o]
  exact List.flatMap_eq_nil_iff.2 fun e mem => spellingOfNone (parts e mem).1.flattened (none e mem)

end Sums

section Runs

variable {settings : Settings} {a b start start' terms terms' r s : Expr}

theorem signedWhole (expand : settings.constants = .expand)
    (written : WrittenIn (plainVocabulary settings True) start)
    (run : signed settings start = .ok terms) : Spelling.tree terms.spelling = terms := by
  have units : ∀ n, { plainVocabulary settings True with neg := True }.const n →
      n = 0 ∨ n = 1 ∨ n = -1 := fun _ known => known expand
  exact (shapedSpelled units (signedShaped run written) (signedWritten run written)).whole

theorem writtenOutAlike (expand : settings.constants = .expand)
    (same : ∀ {start start'}, prepared settings a = .ok start → prepared settings b = .ok start' →
      remainders start.ledger = remainders start'.ledger)
    (runA : normalized settings a = .ok r) (runB : normalized settings b = .ok s)
    (apart : NoCollisions settings.hash (sortedOperands settings a ++ sortedOperands settings b)) :
    r = s := by
  obtain ⟨start, preparesA, restA⟩ := bindOk.1 runA
  obtain ⟨terms, signsA, restA⟩ := bindOk.1 restA
  obtain ⟨left, cancelsA, lastA⟩ := bindOk.1 restA
  obtain ⟨start', preparesB, restB⟩ := bindOk.1 runB
  obtain ⟨terms', signsB, restB⟩ := bindOk.1 restB
  obtain ⟨left', cancelsB, lastB⟩ := bindOk.1 restB
  have writtenA := preparedWritten (writtenAny a) preparesA
  have writtenB := preparedWritten (writtenAny b) preparesB
  obtain ⟨o, spread⟩ := outspread expand writtenA signsA
  obtain ⟨o', spread'⟩ := outspread expand writtenB signsB
  have spellings := spellingsPermuted spread spread' (same preparesA preparesB)
    (apart.part fun t mem => by
      rcases List.mem_append.1 mem with mem | mem
      · exact List.mem_append_left _ (sortedOperandsDistributing preparesA t mem)
      · exact List.mem_append_right _ (sortedOperandsDistributing preparesB t mem))
  have permuted : Permuted terms terms' := ⟨_, _, spellings.map Spelling.term,
    (signedWhole expand writtenA signsA).symm, (signedWhole expand writtenB signsB).symm⟩
  have leftovers := cancelOppositesPermuted (signedShaped signsA writtenA)
    (signedShaped signsB writtenB) permuted cancelsA cancelsB
  have within : ∀ {e start terms left}, prepared settings e = .ok start →
      signed settings start = .ok terms → cancelOpposites settings terms = .ok left →
      ∀ t ∈ sortedRestructuring settings left, t ∈ sortedOperands settings e := by
    intro e start terms left prepares signs cancels t mem
    have both : (signed settings start >>= cancelOpposites settings) = .ok left :=
      bindOk.2 ⟨terms, signs, cancels⟩
    rw [sortedOperands, prepares, fromResult, both, fromResult]
    exact List.mem_append_right _ mem
  refine restructuredAlike lastA lastB leftovers.rearranged (apart.part fun t mem => ?_)
  rcases List.mem_append.1 mem with mem | mem
  · exact List.mem_append_left _ (within preparesA signsA cancelsA t mem)
  · exact List.mem_append_right _ (within preparesB signsB cancelsB t mem)

theorem writtenOutZero (expand : settings.constants = .expand)
    (none : ∀ {start}, prepared settings a = .ok start → remainders start.ledger = 0)
    (run : normalized settings a = .ok r) : r = .const 0 := by
  obtain ⟨start, prepares, run⟩ := bindOk.1 run
  obtain ⟨terms, signs, run⟩ := bindOk.1 run
  have written := preparedWritten (writtenAny a) prepares
  obtain ⟨o, spread⟩ := outspread expand written signs
  have whole := signedWhole expand written signs
  rw [spellingEmpty spread (none prepares)] at whole
  rw [← whole] at run
  exact zeroLeft run

end Runs

end Normalize

end ArithEquiv
