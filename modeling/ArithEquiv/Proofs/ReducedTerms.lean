import ArithEquiv.Proofs.SignedTerms

/-! Cancelling opposites and combining constants keep the shape of a tree. Combining constants asks
of the rules that the product or the sum of allowed constants is allowed, or says nothing. -/
namespace ArithEquiv.Normalize

open ArithEquiv.Expr

section Cancelling

variable {rules : Rules} {settings : Settings} {e r : Expr}

theorem cancelLeavesPlain (e : Expr)
    (other : ∀ op first second rest, e ≠ .flat op first second rest) : cancelNode e = e := by
  unfold cancelNode
  split
  · exact absurd rfl (other _ _ _ _)
  · rfl

theorem cancelShaped (shaped : Shaped rules e) : Shaped rules (e.bottomUp cancelNode) := by
  refine sweepPure shaped cancelLeavesPlain id ?_ ?_
  · rintro first second rest ⟨factors, obeyed, solid⟩ each
    exact ⟨.product factors obeyed solid each, .inr (.inl rfl)⟩
  · rintro first second rest ⟨terms, obeyed⟩ each
    have part := keepSublist (first :: second :: rest) (gone (first :: second :: rest))
    exact shapedSum (fun t mem => terms t (part.subset mem))
      (rules.sumPart (constantsLe part) obeyed) fun t mem => each t (part.subset mem)

theorem cancelOppositesShaped (run : cancelOpposites settings e = .ok r) (shaped : Shaped rules e) :
    Shaped rules r := by
  obtain ⟨flat, flattened, sweeps⟩ := bindOk.1 run
  obtain rfl : flat = e := (flattenRun flattened).trans (flattenOnceFixed (shapedFlattened shaped))
  refine fixedPointKeeps (fun before stepped => ?_) sweeps shaped
  cases stepped
  exact cancelShaped before

theorem cancelOppositesStable (run : cancelOpposites settings e = .ok r) :
    r.bottomUp cancelNode = r := by
  obtain ⟨flat, _, run⟩ := bindOk.1 run
  exact Except.ok.inj (fixedPointStable run)

end Cancelling

section Folding

structure Rules.Folding (rules : Rules) : Prop where
  product : ∀ m, rules.product m → m.prod ≠ 0 ∧ (m.prod = 1 ∨ rules.product {m.prod})
  sum : ∀ m, rules.sum m → m.sum = 0 ∨ rules.sum {m.sum}
  solid : rules.solid

variable {rules : Rules} {settings : Settings}

theorem readyApart {op : AssocOp} {es : List Expr} (ready : Ready rules op es) :
    drawnIn op es = es := by
  refine drawnInSelf fun e mem root => ?_
  have found := kindOfRoot root
  cases op with
  | add => exact ready.1 e mem found
  | mul => rcases ready.1 e mem with h | h <;> cases h.symm.trans found

theorem othersSublist (es : List Expr) : (others es).Sublist es := List.filter_sublist

theorem productFolds {es : List Expr} {r : Expr} (folding : rules.Folding)
    (ready : Ready rules .mul es) (each : ∀ e ∈ es, Shaped rules e) (folds : FoldsTo .mul es r) :
    Shaped rules r ∧ (kind r = .atom ∨ kind r = .product) := by
  obtain ⟨factors, obeyed, solid⟩ := ready
  have total : AssocOp.mul.total (numbers es) = (constants es).prod := totalMul _
  have part := othersSublist es
  have factors' : ∀ e ∈ others es, kind e = .constant ∨ kind e = .atom :=
    fun e mem => factors e (part.subset mem)
  have each' : ∀ e ∈ others es, Shaped rules e := fun e mem => each e (part.subset mem)
  have atom : ∃ e ∈ others es, kind e = .atom := by
    obtain ⟨e, mem, atom⟩ := solid folding.solid
    refine ⟨e, List.mem_filter.2 ⟨mem, ?_⟩, atom⟩
    rw [constNone (by rw [atom]; decide)]
    rfl
  obtain ⟨some, kept⟩ := folding.product _ obeyed
  cases folds with
  | zero _ none => exact absurd (total.symm.trans none) some
  | identity same =>
    refine shapedProduct ?_ factors' ?_ atom each'
    · intro empty
      rw [empty] at atom
      obtain ⟨_, mem, _⟩ := atom
      cases mem
    · rw [constantsOthers]
      exact rules.productPart (Multiset.zero_le _) obeyed
  | constant differs _ =>
    refine shapedProduct (by simp) (List.forall_mem_cons.2 ⟨.inl rfl, factors'⟩) ?_ ?_
      (List.forall_mem_cons.2 ⟨.const _, each'⟩)
    · rw [constantsCons, constantsOthers, add_zero, total]
      exact kept.resolve_left fun one => differs (total.trans one)
    · obtain ⟨e, mem, atom⟩ := atom
      exact ⟨e, List.mem_cons_of_mem _ mem, atom⟩

theorem sumFolds {es : List Expr} {r : Expr} (folding : rules.Folding) (ready : Ready rules .add es)
    (each : ∀ e ∈ es, Shaped rules e) (folds : FoldsTo .add es r) : Shaped rules r := by
  obtain ⟨terms, obeyed⟩ := ready
  have total : AssocOp.add.total (numbers es) = (constants es).sum := totalAdd _
  have part := othersSublist es
  have terms' : ∀ e ∈ others es, kind e ≠ .sum := fun e mem => terms e (part.subset mem)
  have each' : ∀ e ∈ others es, Shaped rules e := fun e mem => each e (part.subset mem)
  cases folds with
  | zero product _ => cases product
  | identity same =>
    refine shapedSum terms' ?_ each'
    rw [constantsOthers]
    exact rules.sumPart (Multiset.zero_le _) obeyed
  | constant differs _ =>
    refine shapedSum (List.forall_mem_cons.2 ⟨by simp [kind], terms'⟩) ?_
      (List.forall_mem_cons.2 ⟨.const _, each'⟩)
    rw [constantsCons, constantsOthers, add_zero, total]
    exact (folding.sum _ obeyed).resolve_left fun zero => differs (total.trans zero)

theorem foldLeavesPlain : LeavesPlain foldConstantsNode := by
  intro e other
  cases e with
  | flat op first second rest => exact absurd rfl (other op first second rest)
  | _ => rfl

theorem foldSweepShaped {A : Type u} {i : Interpretation A} {rel : A → A → Prop}
    (related : i.Compatible rel) (folding : rules.Folding)
    (value : ∀ op first second rest r, Ready rules op (first :: second :: rest) →
      FoldsTo op (first :: second :: rest) r →
      rel ((Expr.flat op first second rest).value i) (r.value i))
    {e r : Expr} (shaped : Shaped rules e) (run : e.bottomUpM foldConstantsNode = .ok r) :
    Shaped rules r ∧ rel (e.value i) (r.value i) := by
  have folds : ∀ {op first second rest r}, Ready rules op (first :: second :: rest) →
      foldConstantsNode (.flat op first second rest) = .ok r →
      FoldsTo op (first :: second :: rest) r := by
    intro op first second rest r ready made
    have folds := foldConstantsNodeOk made
    rwa [readyApart ready] at folds
  have result := shaped.sweep foldLeavesPlain related id ?_ ?_ ?_ run
  · exact ⟨result.1, result.2.2⟩
  · intro first second rest r ready each made
    obtain ⟨whole, root⟩ := productFolds folding ready each (folds ready made)
    exact ⟨whole, root.imp_right .inl⟩
  · intro first second rest r ready each made
    exact sumFolds folding ready each (folds ready made)
  · intro op first second rest r ready made
    exact value op first second rest r ready (folds ready made)

theorem foldConstantsShaped {e r : Expr} (folding : rules.Folding) (shaped : Shaped rules e)
    (run : foldConstants settings e = .ok r) : Shaped rules r :=
  fixedPointKeeps (fun before stepped =>
    (foldSweepShaped weights.compatibleTrue folding (fun _ _ _ _ _ _ _ => trivial) before
      stepped).1) run shaped

theorem foldConstantsKeeps {A : Type u} [CommSemiring A] (a : Arithmetic A) {e r : Expr}
    (folding : rules.Folding)
    (sums : ∀ m, rules.sum m → a.const m.sum = (m.map a.const).sum) (shaped : Shaped rules e)
    (run : foldConstants settings e = .ok r) : a.value r = a.value e := by
  have node : ∀ op first second rest r, Ready rules op (first :: second :: rest) →
      FoldsTo op (first :: second :: rest) r →
      a.value (.flat op first second rest) = a.value r := by
    intro op first second rest r ready folds
    have apart := readyApart ready
    refine (a.valueFlat op first second rest).trans ?_
    have drawn : FoldsTo op (drawnIn op (first :: second :: rest)) r := by rwa [apart]
    refine foldConstantsNodeValue a drawn ?_
    rw [apart]
    cases op with
    | add =>
      rw [totalAdd]
      exact sums _ ready.2
    | mul => exact productsCombine a _
  have kept : Shaped rules r ∧ a.value e = a.value r := by
    refine fixedPointKeeps (P := fun t => Shaped rules t ∧ a.value e = a.value t)
      (fun before stepped => ?_) run ⟨shaped, rfl⟩
    obtain ⟨whole, same⟩ :=
      foldSweepShaped a.interpretation.compatibleEq folding node before.1 stepped
    exact ⟨whole, before.2.trans same⟩
  exact kept.2.symm

end Folding

end ArithEquiv.Normalize
