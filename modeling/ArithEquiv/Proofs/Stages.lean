import ArithEquiv.Proofs.Sweeps

/-! The shape of a tree after each pass of the pipeline. Distribution leaves no sum in a factor or a
numerator; the sign of a product is then one factor, zeros and ones go, and what is left of the
constants of a product is a magnitude behind its sign. -/
namespace ArithEquiv.Normalize

open ArithEquiv.Expr

section Rearranging

variable {settings : Settings} {e r : Expr}

theorem flattenRearranged (e : Expr) : Rearranged (flattenOnce e) e :=
  fun _ i _ => valueFlattenOnce i e

theorem unflattenRearranged (e : Expr) : Rearranged (unflattenOnce e) e :=
  fun _ i _ => valueUnflattenOnce i e

theorem orderRearranged (hash : NodeHash) (op : AssocOp) (e : Expr) :
    Rearranged (orderOnce hash op e) e :=
  fun _ _ commutes => valueOrderOnce commutes hash op e

theorem restructuredRearranged (expand : settings.constants = .expand)
    (run : restructured settings e = .ok r) : Rearranged r e := by
  obtain ⟨combined, o, folds, orders, rfl, _⟩ := restructuredOk run
  rw [foldedExpand expand] at folds
  cases folds
  exact (unflattenRearranged o).trans ((orderOperandsRearranged orders).trans (flattenRearranged e))

theorem distributedRelated {A : Type} {i : Interpretation A} {rel : A → A → Prop}
    (related : i.Compatible rel) (commutes : i.Commutative) (expand : settings.constants = .expand)
    (node : ∀ {e r}, distributeNode settings e = .ok r → rel (e.value i) (r.value i))
    (run : distributed settings e = .ok r) : rel (e.value i) (r.value i) := by
  refine fixedPointRelated related (fun {a b} stepped => ?_) run
  obtain ⟨chains, unflattened, again⟩ := bindOk.1 stepped
  obtain ⟨crossed, multiplied, last⟩ := bindOk.1 again
  have crossing := related.bottomUpM node multiplied
  rw [unflattenValue _ unflattened] at crossing
  rw [restructuredRearranged expand last A i commutes]
  exact crossing

end Rearranging

def Rules.free : Rules where
  product _ := True
  sum _ := True
  negation := False
  solid := False
  productPart _ _ := trivial
  sumPart _ _ := trivial

def Rules.mild : Rules where
  product m := m.card ≤ 1 ∨ ∀ n ∈ m, n = 0 ∨ n = 1 ∨ n = -1
  sum _ := True
  negation := False
  solid := False
  productPart le h := h.imp (Multiset.card_le_card le).trans
    fun units n mem => units n (Multiset.mem_of_le le mem)
  sumPart _ _ := trivial

def Rules.lone : Rules where
  product m := (m.filter fun n => n ≠ 0 ∧ n ≠ 1).card ≤ 1
  sum _ := True
  negation := False
  solid := False
  productPart le := (Multiset.card_le_card (Multiset.filter_le_filter _ le)).trans
  sumPart _ _ := trivial

def Rules.clean : Rules where
  product m := m.card ≤ 1 ∧ ∀ n ∈ m, n ≠ 0 ∧ n ≠ 1
  sum m := 0 ∉ m
  negation := False
  solid := False
  productPart le h := ⟨(Multiset.card_le_card le).trans h.1,
    fun n mem => h.2 n (Multiset.mem_of_le le mem)⟩
  sumPart le h mem := h (Multiset.mem_of_le le mem)

def Rules.signed : Rules where
  product m := m.card ≤ 1 ∧ ∀ n ∈ m, 2 ≤ n
  sum m := 0 ∉ m
  negation := True
  solid := True
  productPart le h := ⟨(Multiset.card_le_card le).trans h.1,
    fun n mem => h.2 n (Multiset.mem_of_le le mem)⟩
  sumPart le h mem := h (Multiset.mem_of_le le mem)

inductive Obeys (rule : AssocOp → Multiset Int → Prop) : Expr → Prop where
  | const (n : Int) : Obeys rule (.const n)
  | var (name : String) : Obeys rule (.var name)
  | neg {arg : Expr} (inner : Obeys rule arg) : Obeys rule (.neg arg)
  | bin {op : BinOp} {left right : Expr} (onLeft : Obeys rule left) (onRight : Obeys rule right) :
      Obeys rule (.bin op left right)
  | flat {op : AssocOp} {first second : Expr} {rest : List Expr}
      (here : rule op (constants (first :: second :: rest)))
      (each : ∀ e ∈ first :: second :: rest, Obeys rule e) :
      Obeys rule (.flat op first second rest)

theorem Shaped.obeying {rules rules' : Rules} {rule : AssocOp → Multiset Int → Prop} {e : Expr}
    (shaped : Shaped rules e) (obeys : Obeys rule e) (negation : rules.negation → rules'.negation)
    (product : ∀ m, rules.product m → rule .mul m → rules'.product m)
    (sum : ∀ m, rules.sum m → rule .add m → rules'.sum m) (solid : rules'.solid → rules.solid) :
    Shaped rules' e := by
  induction shaped with
  | const n => exact .const n
  | var name => exact .var name
  | neg allowed root _ ih =>
    cases obeys with
    | neg inner => exact .neg (negation allowed) root (ih inner)
  | div numerator _ _ ihl ihr =>
    cases obeys with
    | bin onLeft onRight => exact .div numerator (ihl onLeft) (ihr onRight)
  | product factors obeyed must _ ih =>
    cases obeys with
    | flat here each =>
      exact .product factors (product _ obeyed here) (must ∘ solid) fun e mem => ih e mem (each e mem)
  | sum terms obeyed _ ih =>
    cases obeys with
    | flat here each => exact .sum terms (sum _ obeyed here) fun e mem => ih e mem (each e mem)

section Distributed

def combinedRule (op : AssocOp) (m : Multiset Int) : Prop :=
  m.card ≤ 1 ∧ op.identity ∉ m ∧ (op = .mul → 0 ∉ m)

theorem obeysJoin {rule : AssocOp → Multiset Int → Prop} {op : AssocOp} {es : List Expr}
    (here : rule op (constants es)) (each : ∀ e ∈ es, Obeys rule e) : Obeys rule (.join op es) := by
  match es with
  | [] => exact .const _
  | [e] => exact each e (by simp)
  | first :: second :: rest => exact .flat here each

theorem constantsOthers (es : List Expr) : constants (others es) = 0 := by
  unfold constants
  rw [Multiset.coe_eq_zero, List.filterMap_eq_nil_iff]
  intro e mem
  exact Option.isNone_iff_eq_none.1 (List.mem_filter.1 mem).2

theorem drawnInFlattened {op : AssocOp} {es : List Expr} {P : Expr → Prop}
    (flattened : ∀ e ∈ es, Flattened e)
    (holds : ∀ e ∈ es, P e)
    (parts : ∀ first second rest, P (.flat op first second rest) →
      ∀ e ∈ first :: second :: rest, P e) :
    ∀ e ∈ drawnIn op es, Flattened e ∧ rootOp? e ≠ some op ∧ P e := by
  intro t mem
  obtain ⟨e, member, inside⟩ := List.mem_flatMap.1 mem
  have whole := flattened e member
  unfold spliced at inside
  split at inside
  · split at inside
    · rename_i same
      subst same
      cases whole with
      | flat each apart =>
        exact ⟨each t inside, apart t inside, parts _ _ _ (holds _ member) t inside⟩
    · rename_i differs
      rw [List.mem_singleton.1 inside]
      exact ⟨whole, fun root => differs (Option.some.inj root), holds _ member⟩
  · rename_i other
    rw [List.mem_singleton.1 inside]
    refine ⟨whole, fun root => ?_, holds _ member⟩
    cases whole with
    | bin none _ _ => cases none.symm.trans root
    | flat _ _ => exact other _ _ _ _ rfl
    | _ => cases root

theorem foldSweep {e r : Expr} (flattened : Flattened e)
    (run : e.bottomUpM foldConstantsNode = .ok r) : Flattened r ∧ Obeys combinedRule r := by
  refine bottomUpInduction
    (P := fun e r => Flattened e → Flattened r ∧ Obeys combinedRule r) ?_ ?_ ?_ ?_ ?_ run flattened
  · intro n r last _
    cases last
    exact ⟨.const n, .const n⟩
  · intro name r last _
    cases last
    exact ⟨.var name, .var name⟩
  · intro arg a r worked last flattened
    cases last
    cases flattened with
    | neg inner => exact ⟨.neg (worked inner).1, .neg (worked inner).2⟩
  · intro op left right l r' r onLeft onRight last flattened
    cases last
    cases flattened with
    | bin other inLeft inRight =>
      exact ⟨.bin other (onLeft inLeft).1 (onRight inRight).1,
        .bin (onLeft inLeft).2 (onRight inRight).2⟩
  · intro op first second rest a b more r worked last flattened
    cases flattened with
    | flat each _ =>
      have made : ∀ t ∈ a :: b :: more, Flattened t ∧ Obeys combinedRule t := by
        intro t mem
        obtain ⟨e, member, result⟩ := forallTwoRight worked mem
        exact result (each e member)
      have operands : ∀ t ∈ drawnIn op (a :: b :: more), Flattened t ∧ rootOp? t ≠ some op ∧
          Obeys combinedRule t := by
        refine drawnInFlattened (fun t mem => (made t mem).1) (fun t mem => (made t mem).2) ?_
        intro first second rest obeys
        cases obeys with
        | flat _ each => exact each
      have kept : ∀ t ∈ others (drawnIn op (a :: b :: more)), Flattened t ∧ rootOp? t ≠ some op ∧
          Obeys combinedRule t := fun t mem => operands t (List.mem_filter.1 mem).1
      have none : combinedRule op (constants (others (drawnIn op (a :: b :: more)))) := by
        rw [constantsOthers]
        exact ⟨Nat.zero_le 1, Multiset.notMem_zero _, fun _ => Multiset.notMem_zero _⟩
      cases foldConstantsNodeOk last with
      | zero => exact ⟨.const 0, .const 0⟩
      | identity =>
        exact ⟨flattenedJoin (fun t mem => (kept t mem).1) fun t mem => (kept t mem).2.1,
          obeysJoin none fun t mem => (kept t mem).2.2⟩
      | constant differs some =>
        refine ⟨flattenedJoin (List.forall_mem_cons.2 ⟨.const _, fun t mem => (kept t mem).1⟩)
          (List.forall_mem_cons.2 ⟨by simp [rootOp?], fun t mem => (kept t mem).2.1⟩),
          obeysJoin ?_ (List.forall_mem_cons.2 ⟨.const _, fun t mem => (kept t mem).2.2⟩)⟩
        rw [constantsCons, constantsOthers, add_zero]
        refine ⟨Nat.le_refl 1, fun mem => ?_, fun product mem => ?_⟩
        · exact differs (Multiset.mem_singleton.1 mem).symm
        · exact some product (Multiset.mem_singleton.1 mem).symm

theorem foldConstantsObeys {settings : Settings} {e r : Expr} (flattened : Flattened e)
    (run : foldConstants settings e = .ok r) : Flattened r ∧ Obeys combinedRule r := by
  have kept : Flattened r :=
    fixedPointKeeps (fun before stepped => (foldSweep before stepped).1) run flattened
  exact foldSweep kept (fixedPointStable run)

theorem writtenObeys {v : Vocabulary} {e : Expr} (written : WrittenIn v e) :
    Obeys (fun _ m => ∀ n ∈ m, v.const n) e := by
  induction e using Expr.byArgs with
  | const n => exact .const n
  | var name => exact .var name
  | neg arg ih => exact .neg (ih written.2)
  | bin op left right ihl ihr =>
    cases op with
    | add => exact .bin (ihl written.1) (ihr written.2)
    | mul => exact .bin (ihl written.1) (ihr written.2)
    | sub => exact .bin (ihl written.2.1) (ihr written.2.2)
    | div => exact .bin (ihl written.2.1) (ihr written.2.2)
  | flat op first second rest ih =>
    have each := writtenFlat.1 written
    refine .flat (fun n mem => ?_) fun e mem => ih e mem (each e mem)
    obtain ⟨e, member, found⟩ := List.mem_filterMap.1 (Multiset.mem_coe.1 mem)
    have known := each e member
    cases e with
    | const m =>
      cases found
      exact known
    | _ => cases found

theorem singleKind {e : Expr} {v : Vocabulary} (single : (Summands.ofExpr e).isSingle = true)
    (noSub : ¬v.sub) (written : WrittenIn v e) (plain : Unflattened e) : kind e ≠ .sum := by
  intro sum
  rcases sumKind sum with root | ⟨left, right, rfl⟩
  · cases plain with
    | @bin op _ _ _ _ =>
      cases op with
      | add => cases single
      | _ => cases root
    | _ => cases root
  · exact noSub written.1

theorem multipliedOutSound {e : Expr} {v : Vocabulary} (noNeg : ¬v.neg) (noSub : ¬v.sub)
    (out : MultipliedOut e) (plain : Unflattened e) (written : WrittenIn v e) :
    (outline .free e).sound := by
  have closed : ∀ p : Outline, p.Closed .free := fun _ must => must.elim
  induction out with
  | const n => trivial
  | var name => trivial
  | neg _ _ => exact absurd written.1 noNeg
  | @bin op left right onLeft onRight _ _ ihl ihr =>
    cases plain with
    | bin plainLeft plainRight =>
      have factor : ∀ t : Expr, kind t ≠ .sum → WrittenIn v t → (outline .free t).kind.isFactor := by
        intro t term known
        rw [outlineKind]
        cases found : kind t with
        | sum => exact term found
        | negation =>
          cases t with
          | neg arg => exact noNeg known.1
          | bin op _ _ => cases op <;> cases found
          | flat op _ _ _ => cases op <;> cases found
          | _ => cases found
        | _ => trivial
      cases op with
      | add =>
        have inLeft := ihl plainLeft written.1
        have inRight := ihr plainRight written.2
        exact ⟨List.forall_mem_cons.2 ⟨⟨inLeft, closed _⟩,
          List.forall_mem_singleton.2 ⟨inRight, closed _⟩⟩, trivial⟩
      | sub => exact absurd written.1 noSub
      | mul =>
        have termLeft := singleKind (onLeft (.inl rfl)) noSub written.1 plainLeft
        have termRight := singleKind (onRight rfl) noSub written.2 plainRight
        exact ⟨List.forall_mem_cons.2 ⟨⟨ihl plainLeft written.1, factor _ termLeft written.1⟩,
          List.forall_mem_singleton.2 ⟨ihr plainRight written.2, factor _ termRight written.2⟩⟩,
          trivial⟩
      | div =>
        have termLeft := singleKind (onLeft (.inr rfl)) noSub written.2.1 plainLeft
        refine ⟨ihl plainLeft written.2.1, ihr plainRight written.2.2, fun sum => ?_, closed _,
          closed _⟩
        exact termLeft ((outlineKind left).symm.trans sum)
  | flat _ _ => cases plain

theorem distributedShaped {settings : Settings} {e r : Expr} {div : Prop}
    (run : distributed settings e = .ok r) (written : WrittenIn (plainVocabulary settings div) e) :
    Shaped .mild (flattenOnce r) := by
  have known := distributedWritten (fun fold n expand => by rw [fold] at expand; cases expand)
    run written
  have sound := multipliedOutSound id id (distributedMultipliedOut run)
    (distributedUnflattened run) known
  have same : outline .free (flattenOnce r) = outline .free r := valueFlattenOnce _ r
  have free : Shaped .free (flattenOnce r) := by
    rw [← same] at sound
    exact soundShaped (flattenOnceFlattened r) sound fun must => must.elim
  have weaken : ∀ {t : Expr} {rule : AssocOp → Multiset Int → Prop}, Shaped .free t → Obeys rule t →
      (∀ m, rule .mul m → Rules.mild.product m) → Shaped .mild t :=
    fun shaped obeys mild => shaped.obeying obeys id (fun m _ => mild m) (fun _ _ _ => trivial) id
  cases strategy : settings.constants with
  | expand =>
    have flat : WrittenIn (plainVocabulary settings div) (flattenOnce r) := by
      rw [WrittenIn, valueFlattenOnce]
      exact known
    exact weaken free (writtenObeys flat) fun m units => .inr fun n mem => units n mem strategy
  | fold =>
    obtain ⟨_, _, again⟩ := bindOk.1 (fixedPointStable run)
    obtain ⟨_, _, last⟩ := bindOk.1 again
    obtain ⟨combined, o, folds, ordered, made, _⟩ := restructuredOk last
    unfold folded at folds
    rw [strategy] at folds
    obtain ⟨flattened, obeys⟩ := foldConstantsObeys (flattenOnceFlattened _) folds
    have back : Rearranged (flattenOnce r) combined := by
      refine (flattenRearranged r).trans ?_
      rw [made]
      exact (unflattenRearranged o).trans (orderOperandsRearranged ordered)
    have mild := weaken (free.rearranged flattened back) obeys fun m rule => .inl rule.1
    exact mild.rearranged (flattenOnceFlattened r) back.symm

end Distributed

end ArithEquiv.Normalize
