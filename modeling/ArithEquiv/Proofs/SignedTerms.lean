import ArithEquiv.Proofs.Stages

/-! From multiplied out trees to sums of signed terms. -/
namespace ArithEquiv.Normalize

open ArithEquiv.Expr

theorem constantsMem {es : List Expr} {n : Int} : n ∈ constants es ↔ Expr.const n ∈ es := by
  unfold constants
  rw [Multiset.mem_coe, List.mem_filterMap]
  constructor
  · rintro ⟨e, mem, found⟩
    cases e with
    | const m =>
      cases found
      exact mem
    | _ => cases found
  · intro mem
    exact ⟨_, mem, rfl⟩

theorem constantsLe {xs ys : List Expr} (part : xs.Sublist ys) : constants xs ≤ constants ys :=
  Multiset.coe_le.2 (part.filterMap _).subperm

theorem sweepPure {rules rules' : Rules} {g : Expr → Expr} {e : Expr} (shaped : Shaped rules e)
    (plain : ∀ e, (∀ op first second rest, e ≠ .flat op first second rest) → g e = e)
    (negation : rules.negation → rules'.negation)
    (product : ∀ first second rest, Ready rules .mul (first :: second :: rest) →
      (∀ e ∈ first :: second :: rest, Shaped rules' e) →
      Shaped rules' (g (.flat .mul first second rest)) ∧
        (kind (g (.flat .mul first second rest)) = .atom ∨
          kind (g (.flat .mul first second rest)) = .product ∨
          kind (g (.flat .mul first second rest)) = .negation ∧ ¬rules.negation))
    (sum : ∀ first second rest, Ready rules .add (first :: second :: rest) →
      (∀ e ∈ first :: second :: rest, Shaped rules' e) →
      Shaped rules' (g (.flat .add first second rest))) : Shaped rules' (e.bottomUp g) := by
  refine (shaped.sweep (.pure plain) weights.compatibleTrue negation ?_ ?_ ?_
    (bottomUpMPure g e)).1
  · intro first second rest r ready each made
    cases made
    exact product first second rest ready each
  · intro first second rest r ready each made
    cases made
    exact sum first second rest ready each
  · intro op first second rest r _ _
    trivial

section Parity

theorem constantsNoSigns (es : List Expr) :
    constants (es.filter fun e => !e.isConst (-1)) = (constants es).filter (· ≠ -1) := by
  unfold constants
  rw [Multiset.filter_coe]
  congr 1
  induction es with
  | nil => rfl
  | cons e rest ih =>
    rcases constOrOther e with ⟨n, rfl⟩ | other
    · have head : ∀ es, (Expr.const n :: es).filterMap const? = n :: es.filterMap const? :=
        fun es => List.filterMap_cons_some rfl
      by_cases sign : n = -1
      · subst sign
        rw [List.filter_cons_of_neg (by simp [isConst, const?]), head,
          List.filter_cons_of_neg (by simp), ih]
      · rw [List.filter_cons_of_pos (by simp [isConst, const?, sign]), head, head,
          List.filter_cons_of_pos (by simp [sign]), ih]
    · rw [List.filter_cons_of_pos (by simp [isConst, other]), List.filterMap_cons_none other,
        List.filterMap_cons_none other, ih]

theorem mildOthers {m : Multiset Int} (mild : Rules.mild.product m) (sign : -1 ∈ m) :
    ∀ n ∈ m, n ≠ -1 → n = 0 ∨ n = 1 := by
  intro n mem other
  rcases mild with few | units
  · obtain ⟨rest, rfl⟩ := Multiset.exists_cons_of_mem sign
    rw [Multiset.card_cons] at few
    obtain rfl : rest = 0 := Multiset.card_eq_zero.1 (by omega)
    exact absurd (Multiset.mem_singleton.1 mem) other
  · rcases units n mem with h | h | h
    · exact .inl h
    · exact .inr h
    · exact absurd h other

theorem mildLone {m : Multiset Int} (mild : Rules.mild.product m) (noSign : -1 ∉ m) :
    Rules.lone.product m := by
  rcases mild with few | units
  · exact (Multiset.card_le_card (Multiset.filter_le _ m)).trans few
  · have none : m.filter (fun n => n ≠ 0 ∧ n ≠ 1) = 0 := by
      refine Multiset.filter_eq_nil.2 fun n mem other => ?_
      rcases units n mem with h | h | rfl
      · exact other.1 h
      · exact other.2 h
      · exact noSign mem
    show (m.filter fun n => n ≠ 0 ∧ n ≠ 1).card ≤ 1
    rw [none]
    exact Nat.zero_le 1

theorem parityShaped {e : Expr} (shaped : Shaped .mild e) :
    Shaped .lone (e.bottomUp signParityNode) := by
  refine sweepPure shaped ?_ id ?_ fun _ _ _ ready each => .sum ready.1 trivial each
  · intro e other
    unfold signParityNode
    split
    · exact absurd rfl (other _ _ _ _)
    · rfl
  · rintro first second rest ⟨factors, obeyed, _⟩ each
    unfold signParityNode
    dsimp only
    split
    · rename_i none
      refine ⟨.product factors (mildLone obeyed fun sign => ?_) (fun must => must.elim) each, .inr (.inl rfl)⟩
      have counted := List.countP_eq_zero.1 none _ (constantsMem.1 sign)
      exact counted rfl
    · rename_i some
      have sign : -1 ∈ constants (first :: second :: rest) := by
        obtain ⟨e, mem, found⟩ := List.countP_pos_iff.1 (Nat.pos_of_ne_zero some)
        rw [isConstEq found] at mem
        exact constantsMem.2 mem
      have others := mildOthers obeyed sign
      refine ⟨.product ?_ ?_ (fun must => must.elim) ?_, .inr (.inl rfl)⟩
      · refine List.forall_mem_cons.2 ⟨.inl rfl, List.forall_mem_cons.2 ⟨.inl rfl, ?_⟩⟩
        exact fun e mem => factors e (List.mem_filter.1 mem).1
      · rw [constantsCons, constantsCons (.const 1), constantsNoSigns]
        show (Multiset.filter _ _).card ≤ 1
        have none : ((constants (first :: second :: rest)).filter (· ≠ -1)).filter
            (fun n => n ≠ 0 ∧ n ≠ 1) = 0 := by
          refine Multiset.filter_eq_nil.2 fun n mem other => ?_
          obtain ⟨member, differs⟩ := Multiset.mem_filter.1 mem
          rcases others n member differs with h | h
          · exact other.1 h
          · exact other.2 h
        have one : (constants [.const 1]).filter (fun n => n ≠ 0 ∧ n ≠ 1) = 0 := rfl
        rw [Multiset.filter_add, Multiset.filter_add, none, one, add_zero, add_zero]
        exact Multiset.card_le_card (Multiset.filter_le _ _)
      · refine List.forall_mem_cons.2 ⟨.const _, List.forall_mem_cons.2 ⟨.const _, ?_⟩⟩
        exact fun e mem => each e (List.mem_filter.1 mem).1

end Parity

section Units

theorem kindAgrees (rules rules' : Rules) (e : Expr) :
    (outline rules e).kind = (outline rules' e).kind :=
  (outlineKind e).trans (outlineKind e).symm

theorem outlineAgrees (rules rules' : Rules) (e : Expr) :
    (outline rules e).factors = (outline rules' e).factors ∧
      (outline rules e).addends = (outline rules' e).addends := by
  induction e using Expr.byArgs with
  | const n => exact ⟨rfl, rfl⟩
  | var name => exact ⟨rfl, rfl⟩
  | neg arg _ => exact ⟨rfl, rfl⟩
  | bin op left right ihl ihr =>
    have two : ∀ (f : Outline → Multiset Int) (rules : Rules),
        ([outline rules left, outline rules right].map f).sum =
          f (outline rules left) + f (outline rules right) := by
      intro f rules
      rw [List.map_cons, List.map_singleton, List.sum_cons, List.sum_singleton]
    cases op with
    | add => exact ⟨rfl, by
        refine (two _ rules).trans (Eq.trans ?_ (two _ rules').symm)
        rw [ihl.2, ihr.2]⟩
    | mul => exact ⟨by
        refine (two _ rules).trans (Eq.trans ?_ (two _ rules').symm)
        rw [ihl.1, ihr.1], rfl⟩
    | sub => exact ⟨rfl, rfl⟩
    | div => exact ⟨rfl, rfl⟩
  | flat op first second rest ih =>
    rw [outlineFlat, outlineFlat]
    cases op with
    | add =>
      refine ⟨rfl, ?_⟩
      show ((_ : List Outline).map _).sum = ((_ : List Outline).map _).sum
      rw [List.map_map, List.map_map]
      exact congrArg List.sum (List.map_congr_left fun e mem => (ih e mem).2)
    | mul =>
      refine ⟨?_, rfl⟩
      show ((_ : List Outline).map _).sum = ((_ : List Outline).map _).sum
      rw [List.map_map, List.map_map]
      exact congrArg List.sum (List.map_congr_left fun e mem => (ih e mem).1)

theorem mulSound {rules : Rules} {p q : Outline} :
    (Outline.gather rules .mul [p, q]).sound ↔
      ((p.sound ∧ p.kind.isFactor) ∧ q.sound ∧ q.kind.isFactor) ∧
        rules.product (p.factors + q.factors) := by
  simp [Outline.gather, Outline.product]

theorem addSound {rules : Rules} {p q : Outline} :
    (Outline.gather rules .add [p, q]).sound ↔
      ((p.sound ∧ p.Closed rules) ∧ q.sound ∧ q.Closed rules) ∧
        rules.sum (p.addends + q.addends) := by
  simp [Outline.gather, Outline.sum]

theorem mulFactors {rules : Rules} {p q : Outline} :
    (Outline.gather rules .mul [p, q]).factors = p.factors + q.factors := by
  simp [Outline.gather, Outline.product]

theorem addAddends {rules : Rules} {p q : Outline} :
    (Outline.gather rules .add [p, q]).addends = p.addends + q.addends := by
  simp [Outline.gather, Outline.sum]

inductive UnitFree : Expr → Prop where
  | const (n : Int) : UnitFree (.const n)
  | var (name : String) : UnitFree (.var name)
  | neg {arg : Expr} (inner : UnitFree arg) : UnitFree (.neg arg)
  | bin {op : BinOp} {left right : Expr}
      (factors : op = .mul → ∀ n, left = .const n ∨ right = .const n → n ≠ 0 ∧ n ≠ 1)
      (terms : op = .add → ∀ n, left = .const n ∨ right = .const n → n ≠ 0)
      (onLeft : UnitFree left) (onRight : UnitFree right) : UnitFree (.bin op left right)

theorem dropUnitsFree {op : BinOp} {left right : Expr} (onLeft : UnitFree left)
    (onRight : UnitFree right) : UnitFree (dropUnits op left right) := by
  have differs : ∀ {e : Expr} {n m : Int}, ¬e.isConst m = true → e = .const n → n ≠ m := by
    rintro e n m other rfl rfl
    exact other (by simp [isConst, const?])
  unfold dropUnits
  cases op with
  | mul =>
    dsimp only
    split_ifs with zero oneLeft oneRight
    · exact .const 0
    · exact onRight
    · exact onLeft
    · rw [Bool.or_eq_true, not_or] at zero
      refine .bin (fun _ n either => ?_) (fun other => by cases other) onLeft onRight
      rcases either with h | h
      · exact ⟨differs zero.1 h, differs oneLeft h⟩
      · exact ⟨differs zero.2 h, differs oneRight h⟩
  | add =>
    dsimp only
    split_ifs with zeroLeft zeroRight
    · exact onRight
    · exact onLeft
    · refine .bin (fun other => by cases other) (fun _ n either => ?_) onLeft onRight
      rcases either with h | h
      · exact differs zeroLeft h
      · exact differs zeroRight h
  | sub =>
    dsimp only
    split_ifs
    · exact onLeft
    · exact .neg onRight
    · exact .bin (fun other => by cases other) (fun other => by cases other) onLeft onRight
  | div => exact .bin (fun other => by cases other) (fun other => by cases other) onLeft onRight

theorem unitSweepFree {e r : Expr} (run : e.bottomUpM dropUnitsNode = .ok r) : UnitFree r := by
  refine bottomUpInduction (P := fun _ r => UnitFree r) ?_ ?_ ?_ ?_ ?_ run
  · intro n r last
    cases last
    exact .const n
  · intro name r last
    cases last
    exact .var name
  · intro arg a r worked last
    cases last
    exact .neg worked
  · intro op left right l r' r onLeft onRight last
    cases last
    exact dropUnitsFree onLeft onRight
  · intro op first second rest a b more r _ last
    cases last

def FewerFactors (p q : Outline) : Prop :=
  p.sound → q.sound ∧ (p.kind.isFactor → q.kind.isFactor ∧ q.factors ≤ p.factors) ∧
    (p.kind ≠ .sum → q.kind ≠ .sum)

theorem loneClosed (p : Outline) : p.Closed .lone := fun must => must.elim

theorem fewerFactors : (Outline.interpretation .lone).Compatible FewerFactors where
  refl p := fun sound => ⟨sound, fun factor => ⟨factor, le_refl _⟩, id⟩
  trans h g := by
    intro sound
    obtain ⟨onB, factorB, termB⟩ := h sound
    obtain ⟨onC, factorC, termC⟩ := g onB
    refine ⟨onC, fun factor => ?_, termC ∘ termB⟩
    obtain ⟨factor', less⟩ := factorB factor
    obtain ⟨factor'', less'⟩ := factorC factor'
    exact ⟨factor'', less'.trans less⟩
  neg _ sound := sound.1.elim
  bin op a b c d h g := by
    cases op with
    | add =>
      intro sound
      obtain ⟨⟨⟨onA, _⟩, onC, _⟩, _⟩ := addSound.1 sound
      exact ⟨addSound.2 ⟨⟨⟨(h onA).1, loneClosed _⟩, (g onC).1, loneClosed _⟩, trivial⟩,
        fun factor => factor.elim, fun term => absurd rfl term⟩
    | sub => exact fun sound => sound.elim
    | mul =>
      intro sound
      obtain ⟨⟨⟨onA, factorA⟩, onC, factorC⟩, obeyed⟩ := mulSound.1 sound
      obtain ⟨onB, factorsB, _⟩ := h onA
      obtain ⟨onD, factorsD, _⟩ := g onC
      obtain ⟨factorB, lessB⟩ := factorsB factorA
      obtain ⟨factorD, lessD⟩ := factorsD factorC
      have less : b.factors + d.factors ≤ a.factors + c.factors := add_le_add lessB lessD
      refine ⟨mulSound.2 ⟨⟨⟨onB, factorB⟩, onD, factorD⟩, Rules.lone.productPart less obeyed⟩,
        fun _ => ⟨trivial, ?_⟩, fun _ same => by cases same⟩
      exact mulFactors.trans_le (less.trans_eq mulFactors.symm)
    | div =>
      rintro ⟨onA, onC, numerator, _, _⟩
      exact ⟨⟨(h onA).1, (g onC).1, (h onA).2.2 numerator, loneClosed _, loneClosed _⟩,
        fun _ => ⟨trivial, le_refl _⟩, fun _ same => by cases same⟩

theorem dropUnitsNodeFewer {e r : Expr} (run : dropUnitsNode e = .ok r) :
    FewerFactors (outline .lone e) (outline .lone r) := by
  cases e with
  | flat op first second rest => cases run
  | bin op left right =>
    cases run
    have factorTerm : ∀ p : Outline, p.kind.isFactor → p.kind ≠ .sum := by
      intro p factor sum
      rw [sum] at factor
      exact factor
    unfold dropUnits
    cases op with
    | mul =>
      intro sound
      obtain ⟨⟨⟨onLeft, factorLeft⟩, onRight, factorRight⟩, _⟩ := mulSound.1 sound
      have total : (outline .lone (.bin .mul left right)).factors =
          (outline .lone left).factors + (outline .lone right).factors := mulFactors
      rw [total]
      dsimp only
      split_ifs with zero
      · refine ⟨trivial, fun _ => ⟨trivial, ?_⟩, fun _ same => by cases same⟩
        rcases Bool.or_eq_true_iff.1 zero with h | h
        · rw [isConstEq h]
          exact Multiset.le_add_right _ _
        · rw [isConstEq h]
          exact Multiset.le_add_left _ _
      · exact ⟨onRight, fun _ => ⟨factorRight, Multiset.le_add_left _ _⟩,
          fun _ => factorTerm _ factorRight⟩
      · exact ⟨onLeft, fun _ => ⟨factorLeft, Multiset.le_add_right _ _⟩,
          fun _ => factorTerm _ factorLeft⟩
      · exact ⟨sound, fun factor => ⟨factor, total.le⟩, id⟩
    | add =>
      intro sound
      obtain ⟨⟨⟨onLeft, _⟩, onRight, _⟩, _⟩ := addSound.1 sound
      have sum : (outline .lone (.bin .add left right)).kind = .sum := rfl
      dsimp only
      split_ifs
      · exact ⟨onRight, fun factor => by rw [sum] at factor; exact factor.elim,
          fun term => absurd sum term⟩
      · exact ⟨onLeft, fun factor => by rw [sum] at factor; exact factor.elim,
          fun term => absurd sum term⟩
      · exact fewerFactors.refl _ sound
    | sub => exact fun sound => sound.elim
    | div => exact fewerFactors.refl _
  | _ => cases run; exact fewerFactors.refl _

/- A sum or product without units. A constant by itself may still be one. -/
structure Unitless (e : Expr) : Prop where
  sound : (outline .clean e).sound
  factors : e.const? = none → ∀ n ∈ (outline .clean e).factors, n ≠ 0 ∧ n ≠ 1
  addends : e.const? = none → 0 ∉ (outline .clean e).addends

theorem Unitless.factor {e : Expr} (unitless : Unitless e)
    (direct : ∀ n, e = .const n → n ≠ 0 ∧ n ≠ 1) :
    ∀ n ∈ (outline .clean e).factors, n ≠ 0 ∧ n ≠ 1 := by
  intro n mem
  rcases constOrOther e with ⟨m, rfl⟩ | other
  · rw [Multiset.mem_singleton.1 mem]
    exact direct m rfl
  · exact unitless.factors other n mem

theorem Unitless.addend {e : Expr} (unitless : Unitless e) (direct : ∀ n, e = .const n → n ≠ 0) :
    0 ∉ (outline .clean e).addends := by
  intro mem
  rcases constOrOther e with ⟨n, rfl⟩ | other
  · exact direct n rfl (Multiset.mem_singleton.1 mem).symm
  · exact unitless.addends other mem

section Parts

variable {left right : Expr} (onLeft : Unitless left) (onRight : Unitless right)
include onLeft onRight

theorem unitlessSum (terms : ∀ n, left = .const n ∨ right = .const n → n ≠ 0) :
    Unitless (.bin .add left right) := by
  have sum : 0 ∉ (outline .clean left).addends + (outline .clean right).addends := fun mem =>
    (Multiset.mem_add.1 mem).elim (onLeft.addend fun n same => terms n (.inl same))
      (onRight.addend fun n same => terms n (.inr same))
  have closed : ∀ p : Outline, p.Closed .clean := fun _ must => must.elim
  refine ⟨addSound.2 ⟨⟨⟨onLeft.sound, closed _⟩, onRight.sound, closed _⟩, sum⟩,
    fun _ n mem => absurd mem (Multiset.notMem_zero n), fun _ => ?_⟩
  rwa [← addAddends] at sum

theorem unitlessProduct (few : (outline .lone (.bin .mul left right)).sound)
    (factors : ∀ n, left = .const n ∨ right = .const n → n ≠ 0 ∧ n ≠ 1) :
    Unitless (.bin .mul left right) := by
  obtain ⟨⟨⟨_, factorLeft⟩, _, factorRight⟩, lone⟩ := mulSound.1 few
  have all : ∀ n ∈ (outline .clean left).factors + (outline .clean right).factors,
      n ≠ 0 ∧ n ≠ 1 := by
    intro n mem
    rcases Multiset.mem_add.1 mem with mem | mem
    · exact onLeft.factor (fun n same => factors n (.inl same)) n mem
    · exact onRight.factor (fun n same => factors n (.inr same)) n mem
  rw [← outline, (outlineAgrees .lone .clean left).1, ← outline,
    (outlineAgrees .lone .clean right).1] at lone
  have one : ((outline .clean left).factors + (outline .clean right).factors).card ≤ 1 := by
    rw [← Multiset.filter_eq_self.2 all]
    exact lone
  rw [← outline, kindAgrees .lone .clean] at factorLeft factorRight
  refine ⟨mulSound.2 ⟨⟨⟨onLeft.sound, factorLeft⟩, onRight.sound, factorRight⟩, one, all⟩,
    fun _ => ?_, fun _ => Multiset.notMem_zero 0⟩
  rwa [← mulFactors] at all

theorem unitlessQuotient (numerator : (outline .lone left).kind ≠ .sum) :
    Unitless (.bin .div left right) := by
  rw [kindAgrees .lone .clean] at numerator
  exact ⟨⟨onLeft.sound, onRight.sound, numerator, fun must => must.elim, fun must => must.elim⟩,
    fun _ n mem => absurd mem (Multiset.notMem_zero n), fun _ => Multiset.notMem_zero 0⟩

end Parts

theorem unitFreeClean {e : Expr} (free : UnitFree e) (sound : (outline .lone e).sound) :
    Unitless e := by
  induction free with
  | const n =>
    refine ⟨trivial, fun other => ?_, fun other => ?_⟩
    · cases other
    · cases other
  | var name =>
    exact ⟨trivial, fun _ n mem => absurd mem (Multiset.notMem_zero n),
      fun _ => Multiset.notMem_zero 0⟩
  | neg _ _ => exact sound.1.elim
  | @bin op left right factors terms _ _ ihl ihr =>
    cases op with
    | add =>
      obtain ⟨⟨⟨onLeft, _⟩, onRight, _⟩, _⟩ := addSound.1 sound
      exact unitlessSum (ihl onLeft) (ihr onRight) (terms rfl)
    | sub => exact sound.elim
    | mul =>
      obtain ⟨⟨⟨onLeft, _⟩, onRight, _⟩, _⟩ := mulSound.1 sound
      exact unitlessProduct (ihl onLeft) (ihr onRight) sound (factors rfl)
    | div =>
      obtain ⟨onLeft, onRight, numerator, _, _⟩ := sound
      exact unitlessQuotient (ihl onLeft) (ihr onRight) numerator

theorem cleanUnitsShaped {settings : Settings} {e r : Expr} (sound : (outline .lone e).sound)
    (run : cleanUnits settings e = .ok r) : Shaped .clean (flattenOnce r) := by
  have lone : (outline .lone r).sound :=
    (fixedPointRelated fewerFactors
      (fun stepped => fewerFactors.bottomUpM dropUnitsNodeFewer stepped) run sound).1
  have clean := (unitFreeClean (unitSweepFree (fixedPointStable run)) lone).sound
  have same : outline .clean (flattenOnce r) = outline .clean r := valueFlattenOnce _ r
  rw [← same] at clean
  exact soundShaped (flattenOnceFlattened r) clean fun must => must.elim

end Units

section Signs

theorem atomAmong {es : List Expr} (factors : ∀ e ∈ es, kind e = .constant ∨ kind e = .atom)
    (few : (constants es).card < es.length) : ∃ e ∈ es, kind e = .atom := by
  by_contra none
  have all : ∀ e ∈ es, kind e = .constant := by
    intro e mem
    exact (factors e mem).resolve_right fun atom => none ⟨e, mem, atom⟩
  have count : (constants es).card = es.length := by
    clear few none factors
    induction es with
    | nil => rfl
    | cons e rest ih =>
      obtain ⟨n, rfl⟩ := constantKind (all e (by simp))
      rw [constantsCons, Multiset.card_add, ih fun t mem => all t (by simp [mem])]
      exact Nat.add_comm 1 rest.length
  omega

theorem splitNegativeNone {es : List Expr} (none : splitNegative? es = none) {n : Int}
    (mem : Expr.const n ∈ es) : 0 ≤ n := by
  induction es with
  | nil => cases mem
  | cons e rest ih =>
    rw [splitNegative?] at none
    cases sign : negative? e with
    | some m =>
      rw [sign] at none
      cases none
    | none =>
      rw [sign] at none
      rcases List.mem_cons.1 mem with rfl | mem
      · by_contra negative
        have found : negative? (.const n) = some n := by
          simp only [negative?, const?, Option.filter]
          rw [if_pos (by simpa using negative)]
        rw [found] at sign
        cases sign
      · exact ih (Option.map_eq_none_iff.1 none) mem

theorem takeSignLeavesPlain (e : Expr)
    (other : ∀ op first second rest, e ≠ .flat op first second rest) : takeSignNode e = e := by
  unfold takeSignNode
  split
  · exact absurd rfl (other _ _ _ _)
  · rfl

theorem shapedProduct {rules : Rules} {es : List Expr} (some : es ≠ [])
    (factors : ∀ e ∈ es, kind e = .constant ∨ kind e = .atom) (obeyed : rules.product (constants es))
    (solid : ∃ e ∈ es, kind e = .atom) (each : ∀ e ∈ es, Shaped rules e) :
    Shaped rules (.join .mul es) ∧
      (kind (.join .mul es) = .atom ∨ kind (.join .mul es) = .product) := by
  match es with
  | [e] =>
    obtain ⟨t, mem, atom⟩ := solid
    rw [List.mem_singleton.1 mem] at atom
    exact ⟨each e (by simp), .inl atom⟩
  | first :: second :: rest => exact ⟨.product factors obeyed (fun _ => solid) each, .inr rfl⟩

theorem shapedSum {rules : Rules} {es : List Expr} (terms : ∀ e ∈ es, kind e ≠ .sum)
    (obeyed : rules.sum (constants es)) (each : ∀ e ∈ es, Shaped rules e) :
    Shaped rules (.join .add es) := by
  match es with
  | [] => exact .const _
  | [e] => exact each e (by simp)
  | first :: second :: rest => exact .sum terms obeyed each

theorem constantsSplit {n : Int} (front back : List Expr) :
    constants (front ++ .const n :: back) = n ::ₘ constants (front ++ back) := by
  have head : (Expr.const n :: back).filterMap const? = n :: back.filterMap const? :=
    List.filterMap_cons_some rfl
  unfold constants
  rw [List.filterMap_append, List.filterMap_append, head]
  exact Multiset.coe_eq_coe.2 List.perm_middle

theorem magnitudeShaped {n : Int} {others : List Expr} (negative : n < 0)
    (factors : ∀ e ∈ others, kind e = .constant ∨ kind e = .atom) (none : constants others = 0)
    (solid : ∃ e ∈ others, kind e = .atom) (each : ∀ e ∈ others, Shaped .signed e) :
    let magnitude := Expr.join .mul (if n = -1 then others else .const (-n) :: others)
    Shaped .signed magnitude ∧ (kind magnitude = .atom ∨ kind magnitude = .product) := by
  dsimp only
  split
  · refine shapedProduct ?_ factors ?_ solid each
    · rintro rfl
      obtain ⟨_, mem, _⟩ := solid
      cases mem
    · rw [none]
      exact ⟨Nat.zero_le 1, fun n mem => absurd mem (Multiset.notMem_zero n)⟩
  · rename_i differs
    refine shapedProduct (by simp) (List.forall_mem_cons.2 ⟨.inl rfl, factors⟩) ?_ ?_
      (List.forall_mem_cons.2 ⟨.const _, each⟩)
    · rw [constantsCons, none, add_zero]
      refine ⟨Nat.le_refl 1, fun m mem => ?_⟩
      rw [Multiset.mem_singleton.1 mem]
      omega
    · obtain ⟨e, mem, atom⟩ := solid
      exact ⟨e, List.mem_cons_of_mem _ mem, atom⟩

theorem takeSignShaped {e : Expr} (shaped : Shaped .clean e) :
    Shaped .signed (e.bottomUp takeSignNode) := by
  refine sweepPure shaped takeSignLeavesPlain (fun _ => trivial) ?_
    fun _ _ _ ready each => .sum ready.1 ready.2 each
  rintro first second rest ⟨factors, ⟨few, others⟩, _⟩ each
  have solid : ∃ e ∈ first :: second :: rest, kind e = .atom :=
    atomAmong factors (by simp only [List.length_cons]; omega)
  unfold takeSignNode
  dsimp only
  split
  · rename_i none
    refine ⟨.product factors ⟨few, fun n mem => ?_⟩ (fun _ => solid) each, .inr (.inl rfl)⟩
    have differs := others n mem
    have positive := splitNegativeNone none (constantsMem.1 mem)
    omega
  · rename_i n left found
    obtain ⟨negative, front, back, all, rfl, _⟩ := splitNegativeOk found
    rw [all] at few factors solid each
    have part : (front ++ back).Sublist (front ++ .const n :: back) :=
      (List.Sublist.refl front).append (List.sublist_cons_self _ _)
    rw [constantsSplit, Multiset.card_cons] at few
    have none : constants (front ++ back) = 0 := Multiset.card_eq_zero.1 (by omega)
    have atom : ∃ e ∈ front ++ back, kind e = .atom := by
      obtain ⟨e, mem, atom⟩ := solid
      refine ⟨e, ?_, atom⟩
      rcases List.mem_cons.1 (List.perm_middle.mem_iff.1 mem) with rfl | mem
      · cases atom
      · exact mem
    obtain ⟨shaped, root⟩ := magnitudeShaped negative (fun t mem => factors t (part.subset mem))
      none atom fun t mem => each t (part.subset mem)
    exact ⟨.neg trivial root shaped, .inr (.inr ⟨rfl, id⟩)⟩

theorem takeSignKeeps {e : Expr} (shaped : Shaped .signed e) :
    Shaped .signed (e.bottomUp takeSignNode) := by
  refine sweepPure shaped takeSignLeavesPlain id ?_
    fun _ _ _ ready each => .sum ready.1 ready.2 each
  rintro first second rest ⟨factors, obeyed, solid⟩ each
  unfold takeSignNode
  dsimp only
  split
  · exact ⟨.product factors obeyed solid each, .inr (.inl rfl)⟩
  · rename_i n others found
    obtain ⟨negative, front, back, all, _⟩ := splitNegativeOk found
    have mem : n ∈ constants (first :: second :: rest) := by
      rw [all]
      exact constantsMem.2 (by simp)
    have positive := obeyed.2 n mem
    omega

theorem takeSignsShaped {settings : Settings} {e r : Expr} (shaped : Shaped .clean (flattenOnce e))
    (run : takeSigns settings e = .ok r) : Shaped .signed r := by
  obtain ⟨flat, flattened, run⟩ := bindOk.1 run
  obtain rfl := flattenRun flattened
  have either : Shaped .clean r ∨ Shaped .signed r := by
    refine fixedPointKeeps (P := fun t => Shaped .clean t ∨ Shaped .signed t)
      (fun before stepped => ?_) run (.inl shaped)
    cases stepped
    exact .inr (before.elim takeSignShaped takeSignKeeps)
  have stable : r.bottomUp takeSignNode = r := Except.ok.inj (fixedPointStable run)
  rcases either with clean | signed
  · rw [← stable]
    exact takeSignShaped clean
  · exact signed

end Signs

theorem orderedProductsShaped {settings : Settings} {e r : Expr} {div : Prop}
    (run : distributed settings e = .ok r) (written : WrittenIn (plainVocabulary settings div) e) :
    Shaped .mild (orderOnce settings.hash .mul (flattenOnce r)) := by
  have flattened := (orderFlattened settings.hash .mul (flattenOnceFlattened r)).1
  exact (distributedShaped run written).rearranged flattened (orderRearranged _ _ _).symm

theorem signedShaped {settings : Settings} {e r : Expr} {div : Prop}
    (run : signed settings e = .ok r) (written : WrittenIn (plainVocabulary settings div) e) :
    Shaped .signed r := by
  obtain ⟨products, multiplied, run⟩ := bindOk.1 run
  obtain ⟨signs, reduced, run⟩ := bindOk.1 run
  obtain ⟨units, cleaned, last⟩ := bindOk.1 run
  obtain ⟨flat, flattened, reduced⟩ := bindOk.1 reduced
  obtain ⟨ordered, sorted, plain⟩ := bindOk.1 reduced
  have mild : Shaped .mild ordered := by
    rw [orderProductsRun sorted, flattenRun flattened]
    exact orderedProductsShaped multiplied written
  have lone : (outline .lone signs).sound := by
    rw [outline, unflattenValue _ plain]
    exact (shapedSound (parityShaped mild)).1
  exact takeSignsShaped (cleanUnitsShaped lone cleaned) last

end ArithEquiv.Normalize
