import ArithEquiv.Proofs.Stages

/-! Passes that move operands and nothing else. Such a pass works on the parts of a tree and then
puts the operands of every call in order of a rank that each operand has by itself, keeping the order
of equals. One such pass after another is again one, and a pass that is repeated moves nothing more
once it has been repeated as often as the tree is deep: the operands then stay as they are, and a
list that is in order already is not changed. -/

namespace ArithEquiv

section StableSorting

variable {α : Type u}

structure Ranks (le : α → α → Bool) : Prop where
  trans : ∀ a b c, le a b → le b c → le a c
  total : ∀ a b, le a b || le b a

def alike (le : α → α → Bool) (a b : α) : Bool := le a b && le b a

def refined (coarse fine : α → α → Bool) (a b : α) : Bool :=
  coarse a b && (!coarse b a || fine a b)

variable {le coarse fine : α → α → Bool} {xs ys : List α}

theorem Ranks.refl (ranks : Ranks le) (a : α) : le a a := by
  simpa using ranks.total a a

theorem Ranks.alike (ranks : Ranks le) {a b c : α} (first : alike le a b) (second : alike le a c) :
    le b c := by
  simp only [ArithEquiv.alike, Bool.and_eq_true] at first second
  exact ranks.trans b a c first.2 second.1

theorem Ranks.refined (rough : Ranks coarse) (smooth : Ranks fine) : Ranks (refined coarse fine) where
  trans a b c first second := by
    simp only [ArithEquiv.refined, Bool.and_eq_true, Bool.or_eq_true, Bool.not_eq_true'] at *
    refine ⟨rough.trans a b c first.1 second.1, ?_⟩
    cases back : coarse c a with
    | false => exact .inl rfl
    | true =>
      have ba := rough.trans b c a second.1 back
      have cb := rough.trans c a b back first.1
      refine .inr (smooth.trans a b c (first.2.resolve_left ?_) (second.2.resolve_left ?_))
      · simp [ba]
      · simp [cb]
  total a b := by
    have onRough := rough.total a b
    have onSmooth := smooth.total a b
    simp only [ArithEquiv.refined, Bool.or_eq_true, Bool.and_eq_true, Bool.not_eq_true'] at *
    cases ab : coarse a b <;> cases ba : coarse b a <;> simp_all

theorem Ranks.sortKeeps (ranks : Ranks le) {q : α → Bool} (equals : ∀ a b, q a → q b → le a b)
    (xs : List α) : (xs.mergeSort le).filter q = xs.filter q := by
  have sorted : (xs.filter q).Pairwise fun a b => le a b := by
    refine List.pairwise_iff_forall_sublist.2 fun {a b} pair => ?_
    exact equals a b (List.mem_filter.1 (pair.subset (by simp))).2
      (List.mem_filter.1 (pair.subset (by simp))).2
  have inside := List.sublist_mergeSort ranks.trans ranks.total sorted List.filter_sublist
  have kept : (xs.filter q).Sublist ((xs.mergeSort le).filter q) := by
    have twice := inside.filter q
    rwa [List.filter_filter, List.filter_congr fun a _ => Bool.and_self (q a)] at twice
  exact (kept.eq_of_length_le ((List.mergeSort_perm xs le).filter q).length_eq.le).symm

theorem Ranks.unique (ranks : Ranks le) (sortedX : xs.Pairwise fun a b => le a b)
    (sortedY : ys.Pairwise fun a b => le a b)
    (same : ∀ a, xs.filter (ArithEquiv.alike le a) = ys.filter (ArithEquiv.alike le a)) : xs = ys := by
  have own : ∀ a, ArithEquiv.alike le a a := fun a => by
    simp [ArithEquiv.alike, ranks.refl a]
  induction xs generalizing ys with
  | nil =>
    cases ys with
    | nil => rfl
    | cons y ys =>
      have found := same y
      rw [List.filter_nil, List.filter_cons_of_pos (own y)] at found
      cases found
  | cons x xs ih =>
    cases ys with
    | nil =>
      have found := same x
      rw [List.filter_nil, List.filter_cons_of_pos (own x)] at found
      cases found
    | cons y ys =>
      have inY : x ∈ y :: ys := by
        have mem : x ∈ (x :: xs).filter (ArithEquiv.alike le x) :=
          List.mem_filter.2 ⟨List.mem_cons_self, own x⟩
        rw [same x] at mem
        exact (List.mem_filter.1 mem).1
      have inX : y ∈ x :: xs := by
        have mem : y ∈ (y :: ys).filter (ArithEquiv.alike le y) :=
          List.mem_filter.2 ⟨List.mem_cons_self, own y⟩
        rw [← same y] at mem
        exact (List.mem_filter.1 mem).1
      have first : ∀ {z : α} {zs : List α} {t : α}, (z :: zs).Pairwise (fun a b => le a b) →
          t ∈ z :: zs → le z t := by
        intro z zs t sorted mem
        rcases List.mem_cons.1 mem with rfl | mem
        · exact ranks.refl t
        · exact (List.pairwise_cons.1 sorted).1 t mem
      -- Each head is among the members of the other list, so neither ranks before the other.
      have together : ArithEquiv.alike le x y := by
        simp only [ArithEquiv.alike, Bool.and_eq_true]
        exact ⟨first sortedX inX, first sortedY inY⟩
      have heads := same x
      rw [List.filter_cons_of_pos (own x), List.filter_cons_of_pos together] at heads
      obtain ⟨rfl, _⟩ := List.cons.inj heads
      refine congrArg _ (ih (List.pairwise_cons.1 sortedX).2 (List.pairwise_cons.1 sortedY).2 fun a => ?_)
      have rest := same a
      simp only [List.filter_cons] at rest
      split at rest
      · exact (List.cons.inj rest).2
      · exact rest

theorem sortTwice (rough : Ranks coarse) (smooth : Ranks fine) (xs : List α) :
    (xs.mergeSort fine).mergeSort coarse = xs.mergeSort (refined coarse fine) := by
  have both := rough.refined smooth
  have sorted := List.pairwise_mergeSort both.trans both.total xs
  refine rough.unique (List.pairwise_mergeSort rough.trans rough.total _) (sorted.imp ?_) fun a => ?_
  · intro b c before
    exact (Bool.and_eq_true_iff.1 before).1
  rw [rough.sortKeeps (fun b c => rough.alike)]
  refine smooth.unique ((List.pairwise_mergeSort smooth.trans smooth.total xs).filter _) ?_ fun b => ?_
  · refine List.pairwise_iff_forall_sublist.2 fun {b c} pair => ?_
    have inB := (List.mem_filter.1 (pair.subset (show b ∈ [b, c] by simp))).2
    have inC := (List.mem_filter.1 (pair.subset (show c ∈ [b, c] by simp))).2
    have before := List.pairwise_iff_forall_sublist.1 sorted (pair.trans List.filter_sublist)
    have back : coarse c b := rough.alike inC inB
    simpa [refined, back, rough.alike inB inC] using before
  · rw [List.filter_filter, List.filter_filter, both.sortKeeps]
    · rw [← List.filter_filter, ← List.filter_filter, List.filter_comm, smooth.sortKeeps, List.filter_comm]
      exact fun c d => smooth.alike
    · intro c d first second
      simp only [Bool.and_eq_true] at first second
      simp [refined, rough.alike first.2 second.2, smooth.alike first.1 second.1]

end StableSorting

namespace Normalize

open ArithEquiv.Expr

structure Resorts (rank : AssocOp → Expr → Expr → Bool) (g : Expr → Expr) : Prop where
  ranks : ∀ op, Ranks (rank op)
  const : ∀ n, g (.const n) = .const n
  var : ∀ name, g (.var name) = .var name
  neg : ∀ arg, g (.neg arg) = .neg (g arg)
  bin : ∀ {op : BinOp} (left right : Expr), op.assoc? = none →
    g (.bin op left right) = .bin op (g left) (g right)
  flat : ∀ op first second rest, g (.flat op first second rest) =
    .join op (((first :: second :: rest).mergeSort (rank op)).map g)

variable {rank rank' : AssocOp → Expr → Expr → Bool} {g h : Expr → Expr} {e : Expr}

theorem Resorts.join (resorts : Resorts rank g) {op : AssocOp} {es : List Expr}
    (many : 2 ≤ es.length) : g (.join op es) = .join op ((es.mergeSort (rank op)).map g) := by
  match es with
  | first :: second :: rest => exact resorts.flat op first second rest

theorem resortsId : Resorts (fun _ _ _ => true) id where
  ranks _ := ⟨fun _ _ _ _ _ => rfl, fun _ _ => rfl⟩
  const _ := rfl
  var _ := rfl
  neg _ := rfl
  bin _ _ _ := rfl
  flat op first second rest := by
    rw [List.mergeSort_of_pairwise (List.pairwise_of_forall fun _ _ => rfl), List.map_id]
    rfl

theorem Resorts.comp (later : Resorts rank' h) (earlier : Resorts rank g) :
    Resorts (fun op => refined (fun a b => rank' op (g a) (g b)) (rank op)) (h ∘ g) := by
  have drawn : ∀ op, Ranks fun a b => rank' op (g a) (g b) := fun op =>
    ⟨fun a b c => (later.ranks op).trans (g a) (g b) (g c),
      fun a b => (later.ranks op).total (g a) (g b)⟩
  constructor
  · exact fun op => (drawn op).refined (earlier.ranks op)
  · intro n
    rw [Function.comp_apply, earlier.const, later.const]
  · intro name
    rw [Function.comp_apply, earlier.var, later.var]
  · intro arg
    rw [Function.comp_apply, earlier.neg, later.neg]
    rfl
  · intro op left right other
    rw [Function.comp_apply, earlier.bin left right other, later.bin _ _ other]
    rfl
  · intro op first second rest
    have inside : ∀ es : List Expr, (es.mergeSort fun a b => rank' op (g a) (g b)).map g =
        (es.map g).mergeSort (rank' op) := fun _ => List.map_mergeSort fun _ _ _ _ => rfl
    rw [Function.comp_apply, earlier.flat, later.join, ← sortTwice (drawn op) (earlier.ranks op),
      ← List.map_map, inside]
    rw [List.length_map, List.length_mergeSort]
    exact Nat.le_add_left 2 rest.length

theorem Resorts.iterate (resorts : Resorts rank g) (n : Nat) : ∃ rank', Resorts rank' g^[n] := by
  induction n with
  | zero => exact ⟨_, resortsId⟩
  | succ n ih =>
    obtain ⟨rank', before⟩ := ih
    exact ⟨_, before.comp resorts⟩

theorem Resorts.flattened (resorts : Resorts rank g) (flattened : Flattened e) :
    Flattened (g e) ∧ rootOp? (g e) = rootOp? e := by
  induction flattened with
  | const n => rw [resorts.const]; exact ⟨.const n, rfl⟩
  | var name => rw [resorts.var]; exact ⟨.var name, rfl⟩
  | neg _ ih => rw [resorts.neg]; exact ⟨.neg ih.1, rfl⟩
  | bin other _ _ ihl ihr => rw [resorts.bin _ _ other]; exact ⟨.bin other ihl.1 ihr.1, rfl⟩
  | @flat op first second rest _ apart ih =>
    have each : ∀ t ∈ ((first :: second :: rest).mergeSort (rank op)).map g,
        Flattened t ∧ rootOp? t ≠ some op := by
      intro t mem
      obtain ⟨e, member, rfl⟩ := List.mem_map.1 mem
      rw [List.mem_mergeSort] at member
      rw [(ih e member).2]
      exact ⟨(ih e member).1, apart e member⟩
    rw [resorts.flat]
    refine ⟨flattenedJoin (fun t mem => (each t mem).1) fun t mem => (each t mem).2, rootJoin ?_⟩
    rw [List.length_map, List.length_mergeSort]
    exact Nat.le_add_left 2 rest.length

theorem Resorts.number (resorts : Resorts rank g) (flattened : Flattened e) :
    (g e).const? = e.const? := by
  cases flattened with
  | const n => rw [resorts.const]
  | var name => rw [resorts.var]
  | neg _ => rw [resorts.neg]; rfl
  | bin other _ _ => rw [resorts.bin _ _ other]; rfl
  | @flat op first second rest each apart =>
    have root := (resorts.flattened (.flat each apart)).2
    cases same : g (.flat op first second rest) with
    | const n => rw [same] at root; cases root
    | _ => rfl

theorem Resorts.obeys {rule : AssocOp → Multiset Int → Prop} (resorts : Resorts rank g)
    (flattened : Flattened e) (obeys : Obeys rule e) : Obeys rule (g e) := by
  induction flattened with
  | const n => rwa [resorts.const]
  | var name => rwa [resorts.var]
  | neg _ ih =>
    cases obeys with
    | neg inner => rw [resorts.neg]; exact .neg (ih inner)
  | bin other _ _ ihl ihr =>
    cases obeys with
    | bin onLeft onRight => rw [resorts.bin _ _ other]; exact .bin (ihl onLeft) (ihr onRight)
  | @flat op first second rest parts _ ih =>
    cases obeys with
    | flat here each =>
      have moved := List.mergeSort_perm (first :: second :: rest) (rank op)
      have kept : constants (((first :: second :: rest).mergeSort (rank op)).map g) =
          constants (first :: second :: rest) := by
        rw [constants, List.filterMap_map]
        refine Multiset.coe_eq_coe.2 ((moved.filterMap _).trans (.of_eq ?_))
        exact List.filterMap_congr fun e mem => resorts.number (parts e mem)
      rw [resorts.flat]
      refine obeysJoin (kept ▸ here) fun t mem => ?_
      obtain ⟨e, member, rfl⟩ := List.mem_map.1 mem
      rw [List.mem_mergeSort] at member
      exact ih e member (each e member)

theorem Resorts.iterateFlat (resorts : Resorts rank g) (op : AssocOp) (first second : Expr)
    (rest : List Expr) (n : Nat) : ∃ es, es.Perm ((first :: second :: rest).map g^[n]) ∧
      g^[n] (.flat op first second rest) = .join op es := by
  obtain ⟨rank', repeated⟩ := resorts.iterate n
  exact ⟨_, (List.mergeSort_perm _ _).map _, repeated.flat op first second rest⟩

/- By induction on the tree: once the operands of a call stay, one more round puts them in an order
that the next round finds as it would leave it. -/
theorem Resorts.settles (resorts : Resorts rank g) (flattened : Flattened e) {n : Nat}
    (enough : e.weight ≤ n) : g (g^[n] e) = g^[n] e := by
  induction flattened generalizing n with
  | const m => rw [Function.iterate_fixed (resorts.const m), resorts.const]
  | var name => rw [Function.iterate_fixed (resorts.var name), resorts.var]
  | @neg arg _ ih =>
    have inner : (Expr.neg arg).weight = arg.weight + 1 := rfl
    obtain ⟨_, repeated⟩ := resorts.iterate n
    rw [repeated.neg, resorts.neg, ih (by omega)]
  | @bin op left right other _ _ ihl ihr =>
    have inner : (Expr.bin op left right).weight = left.weight + right.weight + 1 := rfl
    obtain ⟨_, repeated⟩ := resorts.iterate n
    rw [repeated.bin _ _ other, resorts.bin _ _ other, ihl (by omega), ihr (by omega)]
  | @flat op first second rest each apart ih =>
    obtain ⟨m, rfl⟩ : ∃ m, n = m + 1 :=
      Nat.exists_eq_add_one_of_ne_zero fun none => by
        have positive := weightPositive (Expr.flat op first second rest)
        omega
    obtain ⟨es, moved, repeated⟩ := resorts.iterateFlat op first second rest m
    have many : 2 ≤ es.length := by
      rw [moved.length_eq, List.length_map]
      exact Nat.le_add_left 2 rest.length
    have still : ∀ t ∈ es, g t = t := by
      intro t mem
      obtain ⟨e, member, rfl⟩ := List.mem_map.1 (moved.mem_iff.1 mem)
      have lighter : e.weight < (Expr.flat op first second rest).weight := weightOperand member
      exact ih e member (by omega)
    have stays : ∀ ts : List Expr, (∀ t ∈ ts, t ∈ es) → ts.map g = ts := fun ts inside =>
      (List.map_congr_left fun t mem => still t (inside t mem)).trans (List.map_id _)
    have sorted : g (.join op es) = .join op (es.mergeSort (rank op)) := by
      rw [resorts.join many, stays _ fun t mem => List.mem_mergeSort.1 mem]
    have order := List.pairwise_mergeSort (resorts.ranks op).trans (resorts.ranks op).total es
    rw [Function.iterate_succ_apply', repeated, sorted, resorts.join (by rwa [List.length_mergeSort]),
      List.mergeSort_of_pairwise order, stays _ fun t mem => List.mem_mergeSort.1 mem]

section Orders

variable (hash : NodeHash)

theorem orderResorts (op : AssocOp) : Resorts
    (fun inner a b => inner ≠ op || before hash (orderOnce hash op a) (orderOnce hash op b))
    (orderOnce hash op) where
  ranks inner := by
    by_cases own : inner = op
    · simp only [own, ne_eq, not_true_eq_false, decide_false, Bool.false_or]
      exact ⟨fun a b c => beforeTrans _ _ _, fun a b => beforeTotal _ _⟩
    · simp only [ne_eq, own, not_false_eq_true, decide_true, Bool.true_or]
      exact ⟨fun _ _ _ _ _ => rfl, fun _ _ => rfl⟩
  const := orderConst hash op
  var := orderVar hash op
  neg := orderNeg hash op
  bin {inner} left right other := by
    rw [orderBin]
    dsimp only
    rw [if_neg fun turned => ?_]
    rw [turned.1, AssocOp.assocBin] at other
    cases other
  flat inner first second rest := by
    rw [orderFlat]
    dsimp only
    by_cases own : inner = op
    · simp only [own, if_true, ne_eq, not_true_eq_false, decide_false, Bool.false_or,
        Sorting.sortEqMergeSort]
      exact congrArg (Expr.join op) (List.map_mergeSort
        (f := orderOnce hash op) (s := before hash) fun _ _ _ _ => rfl).symm
    · simp only [own, if_false, ne_eq, not_false_eq_true, decide_true, Bool.true_or]
      rw [List.mergeSort_of_pairwise (List.pairwise_of_forall fun _ _ => rfl)]

def orderBoth (e : Expr) : Expr := orderOnce hash .mul (orderOnce hash .add e)

theorem orderBothResorts : ∃ rank, Resorts rank (orderBoth hash) :=
  ⟨_, (orderResorts hash .mul).comp (orderResorts hash .add)⟩

end Orders

end Normalize

end ArithEquiv
