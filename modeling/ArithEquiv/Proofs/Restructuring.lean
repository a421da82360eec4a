import ArithEquiv.Proofs.Convergence

/-! Restructuring and distribution come to an end. Combining constants leaves each call with one
constant at most; combining them again only moves it to the front. A round of restructuring after
another is therefore a pass that moves operands, and such rounds come to rest. Multiplying out
interrupts them, but lowers the mass whenever it does. -/
namespace ArithEquiv

namespace Normalize

open ArithEquiv.Expr

def numbersFirst (a b : Expr) : Bool := a.const?.isSome || b.const?.isNone

def frontNode : Expr → Expr
  | .flat op first second rest => .join op ((first :: second :: rest).mergeSort numbersFirst)
  | e => e

def front (e : Expr) : Expr := e.bottomUp frontNode

section Front

theorem numbersFirstRanks : Ranks numbersFirst where
  trans a b c := by
    cases ha : a.const? <;> cases hb : b.const? <;> cases hc : c.const? <;>
      simp [numbersFirst, ha, hb, hc]
  total a b := by
    cases ha : a.const? <;> cases hb : b.const? <;> simp [numbersFirst, ha, hb]

theorem frontNumber (e : Expr) : (front e).const? = e.const? := by
  unfold front
  cases e with
  | const n => rw [bottomUpConst]; rfl
  | var name => rw [bottomUpVar]; rfl
  | neg arg => rw [bottomUpNeg]; rfl
  | bin op left right => rw [bottomUpBin]; rfl
  | flat op first second rest =>
    rw [bottomUpFlat, frontNode]
    generalize sorts : (first.bottomUp frontNode :: second.bottomUp frontNode ::
      rest.map (bottomUp frontNode)).mergeSort numbersFirst = es
    have many := congrArg List.length sorts
    rw [List.length_mergeSort] at many
    match es, many with
    | a :: b :: more, _ => rfl

theorem frontSort (es : List Expr) :
    (es.map front).mergeSort numbersFirst = (es.mergeSort numbersFirst).map front := by
  refine (List.map_mergeSort fun a _ b _ => ?_).symm
  simp only [numbersFirst, frontNumber]

theorem frontResorts : Resorts (fun _ => numbersFirst) front where
  ranks _ := numbersFirstRanks
  const n := by rw [front, bottomUpConst]; rfl
  var name := by rw [front, bottomUpVar]; rfl
  neg arg := by rw [front, bottomUpNeg]; rfl
  bin left right _ := by rw [front, bottomUpBin]; rfl
  flat op first second rest := by
    rw [front, bottomUpFlat, ← frontSort]
    rfl

theorem numbersThenOthers (es : List Expr) :
    es.mergeSort numbersFirst = (numbers es).map .const ++ others es := by
  have constants : (numbers es).map Expr.const = es.filter fun e => e.const?.isSome := by
    induction es with
    | nil => rfl
    | cons e es ih =>
      rcases constOrOther e with ⟨n, rfl⟩ | other
      · exact congrArg _ ih
      · rw [numbers, List.filterMap_cons_none other, List.filter_cons, other]
        exact ih
  have ranks := numbersFirstRanks
  rw [constants]
  refine ranks.unique (List.pairwise_mergeSort ranks.trans ranks.total es) ?_ fun a => ?_
  · refine List.pairwise_append.2 ⟨List.pairwise_iff_forall_sublist.2 ?_,
      List.pairwise_iff_forall_sublist.2 ?_, ?_⟩
    · intro a b pair
      have number := (List.mem_filter.1 (pair.subset (show a ∈ [a, b] by simp))).2
      simp [numbersFirst, number]
    · intro a b pair
      have other := (List.mem_filter.1 (pair.subset (show b ∈ [a, b] by simp))).2
      simp [numbersFirst, other]
    · intro a inFront b _
      simp [numbersFirst, (List.mem_filter.1 inFront).2]
  · rw [ranks.sortKeeps fun b c => ranks.alike, List.filter_append, others, List.filter_filter,
      List.filter_filter]
    have same : ∀ b : Expr, alike numbersFirst a b = (a.const?.isSome == b.const?.isSome) := by
      intro b
      cases ha : a.const? <;> cases hb : b.const? <;> simp [alike, numbersFirst, ha, hb]
    cases known : a.const? with
    | some n =>
      have mine : ∀ b : Expr, (alike numbersFirst a b && b.const?.isSome) = alike numbersFirst a b ∧
          (alike numbersFirst a b && b.const?.isNone) = false := by
        intro b
        rw [same, known]
        cases b.const? <;> simp
      simp [mine]
    | none =>
      have mine : ∀ b : Expr, (alike numbersFirst a b && b.const?.isSome) = false ∧
          (alike numbersFirst a b && b.const?.isNone) = alike numbersFirst a b := by
        intro b
        rw [same, known]
        cases b.const? <;> simp
      simp [mine]

end Front

section Combining

variable {settings : Settings} {e r : Expr} {n : Nat}

theorem foldConstantsNodeReturns (e : Expr) : Returns (foldConstantsNode e) := by
  cases e with
  | flat op first second rest =>
    simp only [foldConstantsNode]
    split
    · exact returnsOk _
    · split
      · exact returnsOk _
      · refine Returns.bind ?_ fun constant _ => returnsOk _
        unfold ofConst
        split
        · exact returnsOk _
        · exact .inr rfl
  | _ => exact returnsOk _

theorem combinedKept {op : AssocOp} {es : List Expr} {r : Expr} (combined : combinedRule op (constants es))
    (folds : FoldsTo op es r) : r = .join op (es.mergeSort numbersFirst) := by
  obtain ⟨few, notUnit, notZero⟩ := combined
  rw [numbersThenOthers]
  match known : numbers es with
  | [] =>
    have total : op.total [] = op.identity := rfl
    cases folds with
    | zero product none =>
      subst product
      rw [known] at none
      cases none
    | identity same => rfl
    | constant differs _ => exact absurd (by rw [known, total]) differs
  | [m] =>
    have total : op.total [m] = m := by
      cases op with
      | add => exact Int.zero_add m
      | mul => exact Int.one_mul m
    have here : m ∈ constants es := by
      have list : constants es = (numbers es : Multiset Int) := rfl
      rw [list, known]
      exact Multiset.mem_singleton_self m
    cases folds with
    | zero product none =>
      rw [known, total] at none
      exact absurd (none ▸ here) (notZero product)
    | identity same =>
      rw [known, total] at same
      exact absurd (same ▸ here) notUnit
    | constant differs _ =>
      rw [known, total]
      rfl
  | m :: m' :: more =>
    have many : 2 ≤ (constants es).card := by
      have list : constants es = (numbers es : Multiset Int) := rfl
      rw [list, known, Multiset.coe_card]
      exact Nat.le_add_left 2 more.length
    omega

theorem foldAgain (flattened : Flattened e) (combined : Obeys combinedRule e)
    (run : e.bottomUpM foldConstantsNode = .ok r) : r = front e := by
  have leaf : ∀ {t r : Expr}, (∀ op first second rest, t ≠ .flat op first second rest) →
      foldConstantsNode t = .ok r → r = t := by
    intro t r other last
    cases t with
    | flat op first second rest => exact absurd rfl (other op first second rest)
    | _ => exact (Except.ok.inj last).symm
  refine bottomUpInduction (P := fun e r => Flattened e → Obeys combinedRule e → r = front e)
    ?_ ?_ ?_ ?_ ?_ run flattened combined
  · intro n r last _ _
    rw [frontResorts.const]
    exact leaf (by simp) last
  · intro name r last _ _
    rw [frontResorts.var]
    exact leaf (by simp) last
  · intro arg a r worked last flattened combined
    cases flattened with
    | neg flat =>
      cases combined with
      | neg inner => rw [leaf (by simp) last, frontResorts.neg, worked flat inner]
  · intro op left right l r' r onLeft onRight last flattened combined
    cases flattened with
    | bin other flatLeft flatRight =>
      cases combined with
      | bin inLeft inRight =>
        rw [leaf (by simp) last, frontResorts.bin _ _ other, onLeft flatLeft inLeft,
          onRight flatRight inRight]
  · intro op first second rest a b more r worked last flattened combined
    cases flattened with
    | flat flat apart =>
      cases combined with
      | flat here each =>
        have pairs : List.Forall₂ (fun e t => front e = t) (first :: second :: rest)
            (a :: b :: more) :=
          forallTwoOfMem worked fun e mem t made => (made (flat e mem) (each e mem)).symm
        have operands : (first :: second :: rest).map front = a :: b :: more := by
          rw [← List.forall₂_eq_eq_eq, List.forall₂_map_left_iff]
          exact pairs
        have apart' : ∀ t ∈ a :: b :: more, rootOp? t ≠ some op := by
          intro t mem
          rw [← operands] at mem
          obtain ⟨e, member, rfl⟩ := List.mem_map.1 mem
          rw [(frontResorts.flattened (flat e member)).2]
          exact apart e member
        have rule : combinedRule op (constants (a :: b :: more)) := by
          have kept : constants (a :: b :: more) = constants (first :: second :: rest) := by
            rw [← operands, constants, List.filterMap_map]
            exact congrArg _ (List.filterMap_congr fun e _ => frontNumber e)
          rw [kept]
          exact here
        have folds := foldConstantsNodeOk last
        rw [drawnInSelf apart'] at folds
        -- There is one constant at most, so combining them is sorting it to the front.
        rw [combinedKept rule folds, ← operands, frontSort, frontResorts.flat]

end Combining

section Rounds

variable {settings : Settings} {e r x : Expr} {n : Nat}

structure Combined (e : Expr) : Prop where
  flattened : Flattened e
  obeys : Obeys combinedRule e

theorem Combined.front (combined : Combined e) : Combined (front e) :=
  ⟨(frontResorts.flattened combined.flattened).1,
    frontResorts.obeys combined.flattened combined.obeys⟩

theorem Combined.sweep {t : Expr} (combined : Combined t) (run : t.bottomUpM foldConstantsNode = .ok r) :
    r = Normalize.front t :=
  foldAgain combined.flattened combined.obeys run

theorem foldConstantsRounds (combined : Combined e) (run : foldConstants settings e = .ok r)
    (enough : e.weight ≤ n) : r = front^[n] e :=
  frontResorts.run combined.flattened combined Combined.front Combined.sweep run enough

theorem foldConstantsReturns (room : Roomy settings n) (flattened : Flattened e)
    (light : e.mass < n) : Returns (foldConstants settings e) := by
  refine (Returns.bottomUpM foldConstantsNodeReturns e).bind fun first swept => ?_
  obtain ⟨flat, obeys⟩ := foldSweep flattened swept
  have lighter : first.mass ≤ e.mass := lighterOrSame.bottomUpM foldConstantsNodeMass swept
  have small := weightMass first
  have rounds := room.rounds
  have staged := frontResorts.staged (P := Combined) flat ⟨flat, obeys⟩ Combined.front
    Combined.sweep (fun _ _ => Returns.bottomUpM foldConstantsNodeReturns _) (show first.weight ≤ n by omega)
  exact staged.settle room (.inr ⟨first.weight, by omega, 0, rfl, rfl⟩)

theorem foldedReturns (room : Roomy settings n) (flattened : Flattened e) (light : e.mass < n) :
    Returns (folded settings e) := by
  unfold folded
  split
  · exact foldConstantsReturns room flattened light
  · exact returnsOk e

theorem foldedFlattened (flattened : Flattened e) (run : folded settings e = .ok r) : Flattened r := by
  unfold folded at run
  split at run
  · exact (foldConstantsObeys flattened run).1
  · cases run
    exact flattened

theorem restructuredReturns (room : Roomy settings n) (light : e.mass < n) :
    Returns (restructured settings e) := by
  have small := weightMass e
  have atLeast := massAtLeast e
  refine (flattenReturns room (by omega) (by omega)).bind fun flat flattens => ?_
  obtain rfl := flattenRun flattens
  have kept : (flattenOnce e).mass = e.mass := valueFlattenOnce masses e
  refine (foldedReturns room (flattenOnceFlattened e) (by omega)).bind fun combined folds => ?_
  have lighter := foldedMass folds
  have below := weightMass combined
  refine (orderOperandsReturns room (foldedFlattened (flattenOnceFlattened e) folds)
    (by omega)).bind fun ordered orders => ?_
  have moved : ordered.weight = combined.weight :=
    orderOperandsValue (fun op x y => by cases op <;> exact congrArg (· + 1) (Nat.add_comm x y)) orders
  exact unflattenReturns room (by omega) (by omega)

structure Restored (settings : Settings) (x : Expr) : Prop where
  flattened : Flattened x
  obeys : settings.constants = .fold → Obeys combinedRule x

def arrange (settings : Settings) (n : Nat) (x : Expr) : Expr :=
  (orderBoth settings.hash)^[n] (match settings.constants with
    | .fold => front^[n] x
    | .expand => x)

theorem arrangeResorts (settings : Settings) (n : Nat) : ∃ rank, Resorts rank (arrange settings n) := by
  obtain ⟨_, both⟩ := orderBothResorts settings.hash
  obtain ⟨_, orders⟩ := both.iterate n
  unfold arrange
  split
  · obtain ⟨_, fronts⟩ := frontResorts.iterate n
    exact ⟨_, orders.comp fronts⟩
  · exact ⟨_, orders⟩

theorem Restored.arrange (restored : Restored settings x) : Restored settings (arrange settings n x) := by
  obtain ⟨_, resorts⟩ := arrangeResorts settings n
  exact ⟨(resorts.flattened restored.flattened).1,
    fun fold => resorts.obeys restored.flattened (restored.obeys fold)⟩

theorem restructuredRestored (run : restructured settings e = .ok r) :
    ∃ x, Restored settings x ∧ r = unflattenOnce x := by
  obtain ⟨combined, o, folds, orders, made, _⟩ := restructuredOk run
  have flattened := foldedFlattened (flattenOnceFlattened e) folds
  obtain ⟨_, both⟩ := orderBothResorts settings.hash
  obtain ⟨_, resorts⟩ := both.iterate combined.weight
  rw [orderOperandsRounds flattened orders (Nat.le_refl _)] at made
  refine ⟨_, ⟨(resorts.flattened flattened).1, fun fold => ?_⟩, made⟩
  unfold folded at folds
  rw [fold] at folds
  exact resorts.obeys flattened (foldConstantsObeys (flattenOnceFlattened e) folds).2

theorem restructuredAgain (restored : Restored settings x)
    (run : restructured settings (unflattenOnce x) = .ok r) (enough : x.weight ≤ n) :
    r = unflattenOnce (Normalize.arrange settings n x) := by
  obtain ⟨combined, o, folds, orders, made, _⟩ := restructuredOk run
  rw [flattenUnflatten restored.flattened] at folds
  have fronts : combined = match settings.constants with
      | .fold => front^[n] x
      | .expand => x := by
    unfold folded at folds
    cases strategy : settings.constants with
    | fold =>
      rw [strategy] at folds
      exact foldConstantsRounds ⟨restored.flattened, restored.obeys strategy⟩ folds enough
    | expand =>
      rw [strategy] at folds
      exact (Except.ok.inj folds).symm
  have flattened := foldedFlattened restored.flattened folds
  have kept : combined.weight = x.weight := by
    rw [fronts]
    split
    · exact frontResorts.iterateWeight restored.flattened n
    · rfl
  rw [made, orderOperandsRounds flattened orders (show combined.weight ≤ n by omega), fronts]
  rfl

end Rounds

section Distribution

variable {settings : Settings} {e r : Expr} {n : Nat}

theorem multiplyOutReturns (room : Roomy settings n) {op : BinOp} {left right : Summands}
    (light : (Summands.cross op left right).mass ≤ n) :
    Returns (multiplyOut settings op left right) := by
  have nodes := room.nodes
  have size := sizeWeight (Summands.cross op left right)
  have small := weightMass (Summands.cross op left right)
  rw [crossSizeEq] at size
  unfold multiplyOut
  dsimp only
  rw [if_neg (by omega)]
  exact returnsOk _

theorem distributeNodeReturns (room : Roomy settings n) {op : BinOp} {left right : Expr}
    (light : (Expr.bin op left right).mass ≤ n) :
    Returns (distributeNode settings (.bin op left right)) := by
  have crossed : ∀ {s : Summands}, s.Proper → op = .mul ∨ op = .div → s.join = right →
      (Summands.ofExpr left).isSingle = false ∨ s.isSingle = false →
      Returns (multiplyOut settings op (Summands.ofExpr left) s) := by
    intro s proper product whole many
    have less := crossMass product (ofExprProper left) proper many
    rw [whole, Summands.joinOfExpr] at less
    have same : (Expr.bin op left right).mass = left.mass * right.mass := by
      rcases product with rfl | rfl <;> rfl
    exact multiplyOutReturns room (by omega)
  unfold distributeNode
  cases op with
  | mul =>
    dsimp only
    split
    · exact returnsOk _
    · rename_i many
      refine crossed (ofExprProper right) (.inl rfl) (Summands.joinOfExpr right) ?_
      rwa [Bool.and_eq_true, not_and_or, Bool.not_eq_true, Bool.not_eq_true] at many
  | div =>
    dsimp only
    split
    · exact returnsOk _
    · rename_i many
      rw [Bool.not_eq_true] at many
      exact @crossed (.single right) trivial (.inr rfl) rfl (.inl many)
  | _ => exact returnsOk _

theorem distributeSweepReturns (room : Roomy settings n) (plain : Unflattened e)
    (light : e.mass ≤ n) : Returns (e.bottomUpM (distributeNode settings)) := by
  induction plain with
  | const m => rw [bottomUpMConst]; exact returnsOk _
  | var name => rw [bottomUpMVar]; exact returnsOk _
  | @neg arg _ ih =>
    have whole : (Expr.neg arg).mass = arg.mass + 1 := rfl
    rw [bottomUpMNeg]
    exact (ih (by omega)).bind fun a _ => returnsOk (Expr.neg a)
  | @bin op left right _ _ ihl ihr =>
    have parts : left.mass ≤ (Expr.bin op left right).mass ∧
        right.mass ≤ (Expr.bin op left right).mass := by
      have atLeft := massAtLeast left
      have atRight := massAtLeast right
      have sums : left.mass ≤ left.mass + right.mass + 1 ∧
        right.mass ≤ left.mass + right.mass + 1 := by omega
      have products : left.mass ≤ left.mass * right.mass ∧
          right.mass ≤ left.mass * right.mass :=
        ⟨Nat.le_mul_of_pos_right _ (by omega), Nat.le_mul_of_pos_left _ (by omega)⟩
      cases op with
      | add => exact sums
      | sub => exact sums
      | mul => exact products
      | div => exact products
    rw [bottomUpMBin]
    refine (ihl (parts.1.trans light)).bind fun l onLeft => ?_
    refine (ihr (parts.2.trans light)).bind fun r onRight => ?_
    have lighter := massBin op (distributeLightens onLeft).le (distributeLightens onRight).le
    exact distributeNodeReturns room (lighter.1.trans light)

theorem distributedOnceReturns (room : Roomy settings n) (light : e.mass < n) :
    Returns (distributedOnce settings e) := by
  have small := weightMass e
  have atLeast := massAtLeast e
  refine (unflattenReturns room (by omega) (by omega)).bind fun chains unflattens => ?_
  obtain rfl := unflattenRun unflattens
  have kept : (unflattenOnce e).mass = e.mass := valueUnflattenOnce masses e
  refine (distributeSweepReturns room (unflattenOnceUnflattened e) (by omega)).bind
    fun crossed multiplied => ?_
  have lighter := (distributeLightens multiplied).le
  exact restructuredReturns room (by omega)

/- A round that lowers nothing has only restructured. -/
theorem distributedOnceOk (run : distributedOnce settings e = .ok r) :
    (∃ x, Restored settings x ∧ r = unflattenOnce x) ∧
      (r.mass < e.mass ∨ restructured settings (unflattenOnce e) = .ok r ∧ r.mass = e.mass) := by
  obtain ⟨chains, unflattens, run⟩ := bindOk.1 run
  obtain ⟨crossed, multiplied, last⟩ := bindOk.1 run
  obtain rfl := unflattenRun unflattens
  have kept : (unflattenOnce e).mass = e.mass := valueUnflattenOnce masses e
  have lighter := restructuredMass last
  refine ⟨restructuredRestored last, ?_⟩
  rcases distributeLightens multiplied with less | ⟨rfl, _⟩
  · exact .inl (by omega)
  · rcases Nat.lt_or_eq_of_le lighter with less | same
    · exact .inl (by omega)
    · exact .inr ⟨last, by omega⟩

def Calm (settings : Settings) (n : Nat) : Nat → Expr → Prop
  | 0, _ => True
  | k + 1, e => ∃ x, Restored settings x ∧ e = unflattenOnce ((arrange settings n)^[k] x)

theorem Calm.next {k : Nat} (calm : Calm settings n k e)
    (run : restructured settings (unflattenOnce e) = .ok r) (light : e.weight ≤ n) :
    Calm settings n (k + 1) r ∧ (k = n + 1 → r = e) := by
  match k with
  | 0 =>
    obtain ⟨x, restored, made⟩ := restructuredRestored run
    exact ⟨⟨x, restored, made⟩, fun none => absurd none (Nat.succ_ne_zero n).symm⟩
  | k + 1 =>
    obtain ⟨x, restored, rfl⟩ := calm
    have settled : Restored settings ((arrange settings n)^[k] x) :=
      iterateKeeps (P := Restored settings) (fun restored => restored.arrange) restored k
    obtain ⟨_, resorts⟩ := arrangeResorts settings n
    have kept : x.weight ≤ n := by
      have same := resorts.iterateWeight restored.flattened k
      have chains : (unflattenOnce ((arrange settings n)^[k] x)).weight =
          ((arrange settings n)^[k] x).weight := valueUnflattenOnce weights _
      omega
    have enough : ((arrange settings n)^[k] x).weight ≤ n := by
      rwa [resorts.iterateWeight restored.flattened]
    rw [unflattenOnceFixed (unflattenOnceUnflattened _)] at run
    have made := restructuredAgain settled run enough
    refine ⟨⟨x, restored, ?_⟩, fun last => ?_⟩
    · rw [made, Function.iterate_succ_apply']
    · obtain rfl : k = n := Nat.succ.inj last
      rw [made, resorts.settles restored.flattened kept]

theorem distributedReturns (room : Roomy settings ((e.mass + 1) * (e.mass + 3))) :
    Returns (distributed settings e) := by
  have atLeast : e.mass + 1 ≤ (e.mass + 1) * (e.mass + 3) :=
    Nat.le_mul_of_pos_right _ (Nat.succ_pos _)
  have staged : Staged (distributedOnce settings) ((e.mass + 1) * (e.mass + 3)) fun m t =>
      ∃ k, t.mass ≤ e.mass ∧ Calm settings e.mass k t ∧
        m + k = t.mass * (e.mass + 2) + (e.mass + 1) ∧ k ≤ e.mass + 1 := by
    constructor
    · rintro m t ⟨k, lighter, _⟩
      have small := weightMass t
      omega
    · rintro m t ⟨k, lighter, _⟩
      exact distributedOnceReturns (room.mono atLeast) (Nat.lt_succ_of_le lighter)
    · rintro m t r ⟨k, lighter, calm, total, few⟩ stepped
      have small := weightMass t
      obtain ⟨⟨x, restored, made⟩, less | ⟨run, same⟩⟩ := distributedOnceOk stepped
      · have drop : (r.mass + 1) * (e.mass + 2) ≤ t.mass * (e.mass + 2) :=
          Nat.mul_le_mul_right _ less
        rw [Nat.add_mul, Nat.one_mul] at drop
        exact .inr ⟨r.mass * (e.mass + 2) + e.mass, by omega, 1, by omega, ⟨x, restored, made⟩,
          by omega, by omega⟩
      · obtain ⟨next, rest⟩ := calm.next run (by omega)
        by_cases last : k = e.mass + 1
        · exact .inl (rest last)
        · have positive : e.mass + 2 ≤ t.mass * (e.mass + 2) :=
            Nat.le_mul_of_pos_left _ (by have := massAtLeast t; omega)
          exact .inr ⟨m - 1, by omega, k + 1, by omega, next, by rw [same]; omega, by omega⟩
  have few : e.mass * (e.mass + 2) + (e.mass + 1) < (e.mass + 1) * (e.mass + 3) := by
    rw [Nat.add_mul, Nat.one_mul, Nat.mul_add, Nat.mul_add]
    omega
  exact staged.loop room ⟨0, Nat.le_refl _, trivial, Nat.add_zero _, Nat.zero_le _⟩ few

end Distribution

end Normalize

end ArithEquiv
