import ArithEquiv.Proofs.MultipliedOut

/-! Trees written with given constants and operators only. Sums and products are always allowed.
The passes up to distribution leave neither differences nor negations, and no pass brings a
quotient or, where constants are not combined, a constant other than zero, one and minus one. -/
namespace ArithEquiv

structure Vocabulary where
  const : Int → Prop
  neg : Prop
  sub : Prop
  div : Prop

namespace Vocabulary

variable (v : Vocabulary)

def interpretation : Interpretation Prop where
  const := v.const
  var _ := True
  neg p := v.neg ∧ p
  bin
    | .add => fun p q => p ∧ q
    | .sub => fun p q => v.sub ∧ p ∧ q
    | .mul => fun p q => p ∧ q
    | .div => fun p q => v.div ∧ p ∧ q
  assoc op p q r := by cases op <;> exact propext and_assoc

theorem commutative : v.interpretation.Commutative := by
  intro op p q
  cases op <;> exact propext and_comm

theorem compatible : v.interpretation.Compatible fun p q => p → q where
  refl _ := id
  trans h g := g ∘ h
  neg h := And.imp_right h
  bin op _ _ _ _ h g := by
    cases op with
    | add => exact And.imp h g
    | sub => exact And.imp_right (And.imp h g)
    | mul => exact And.imp h g
    | div => exact And.imp_right (And.imp h g)

end Vocabulary

namespace Expr

variable {v : Vocabulary}

def WrittenIn (v : Vocabulary) (e : Expr) : Prop := e.value v.interpretation

theorem writtenFlat {op : AssocOp} {first second : Expr} {rest : List Expr} :
    WrittenIn v (.flat op first second rest) ↔ ∀ e ∈ first :: second :: rest, WrittenIn v e := by
  have chains : ∀ (rest : List Expr) (before : Prop),
      v.interpretation.chain op before (rest.map (value v.interpretation)) ↔
        before ∧ ∀ e ∈ rest, WrittenIn v e := by
    intro rest
    induction rest with
    | nil => exact fun before => ⟨fun h => ⟨h, by simp⟩, And.left⟩
    | cons e rest ih =>
      intro before
      refine (ih _).trans ?_
      rw [List.forall_mem_cons, ← and_assoc]
      cases op <;> exact Iff.rfl
  rw [WrittenIn, valueFlat, chains]
  exact List.forall_mem_cons.symm

theorem writtenAny (e : Expr) :
    WrittenIn { const := fun _ => True, neg := True, sub := True, div := True } e := by
  let all : Vocabulary := { const := fun _ => True, neg := True, sub := True, div := True }
  refine valueHolds (P := fun p => p) all.interpretation (fun _ => trivial) (fun _ => trivial)
    (fun _ h => ⟨trivial, h⟩) ?_ e
  intro op p q h g
  cases op with
  | add => exact ⟨h, g⟩
  | mul => exact ⟨h, g⟩
  | sub => exact ⟨trivial, h, g⟩
  | div => exact ⟨trivial, h, g⟩

theorem writtenJoin {op : AssocOp} {es : List Expr} (each : ∀ e ∈ es, WrittenIn v e)
    (identity : v.const op.identity) : WrittenIn v (.join op es) := by
  match es with
  | [] => exact identity
  | [e] => exact each e (by simp)
  | first :: second :: rest => exact writtenFlat.2 each

theorem WrittenIn.mono {v' : Vocabulary} {e : Expr} (written : WrittenIn v e)
    (const : ∀ n, v.const n → v'.const n) (neg : v.neg → v'.neg) (sub : v.sub → v'.sub)
    (div : v.div → v'.div) : WrittenIn v' e := by
  induction e using Expr.byArgs with
  | const n => exact const n written
  | var name => trivial
  | neg arg ih => exact ⟨neg written.1, ih written.2⟩
  | bin op left right ihl ihr =>
    cases op with
    | add => exact And.imp ihl ihr written
    | mul => exact And.imp ihl ihr written
    | sub => exact ⟨sub written.1, And.imp ihl ihr written.2⟩
    | div => exact ⟨div written.1, And.imp ihl ihr written.2⟩
  | flat op first second rest ih =>
    exact writtenFlat.2 fun e mem => ih e mem (writtenFlat.1 written e mem)

end Expr

namespace Normalize

open ArithEquiv.Expr

variable {v : Vocabulary} {e r : Expr}

theorem splicedWritten {op : AssocOp} {es : List Expr} (each : ∀ e ∈ es, WrittenIn v e) :
    ∀ e ∈ es.flatMap (spliced op), WrittenIn v e := by
  intro t mem
  obtain ⟨e, member, inside⟩ := List.mem_flatMap.1 mem
  unfold spliced at inside
  split at inside
  · split at inside
    · exact writtenFlat.1 (each _ member) t inside
    · rw [List.mem_singleton.1 inside]
      exact each _ member
  · rw [List.mem_singleton.1 inside]
    exact each _ member

theorem foldConstantsNodeWritten (all : ∀ n, v.const n) (run : foldConstantsNode e = .ok r)
    (written : WrittenIn v e) : WrittenIn v r := by
  cases e with
  | flat op first second rest =>
    have each : ∀ e ∈ drawnIn op (first :: second :: rest), WrittenIn v e :=
      splicedWritten (writtenFlat.1 written)
    have kept : ∀ e ∈ others (drawnIn op (first :: second :: rest)), WrittenIn v e :=
      fun e mem => each e (List.mem_filter.1 mem).1
    cases foldConstantsNodeOk run with
    | zero => exact all 0
    | identity => exact writtenJoin kept (all _)
    | constant => exact writtenJoin (List.forall_mem_cons.2 ⟨all _, kept⟩) (all _)
  | _ => cases run; exact written

theorem distributeNodeWritten {settings : Settings} (run : distributeNode settings e = .ok r)
    (written : WrittenIn v e) : WrittenIn v r := by
  have linear : ∀ (s : Expr) (F : Prop → Prop), (∀ p q, F (p ∧ q) = (F p ∧ F q)) →
      (∀ p q, F (v.sub ∧ p ∧ q) = (v.sub ∧ F p ∧ F q)) →
      (Summands.ofExpr s).Linear v.interpretation F := by
    intro s F add sub
    cases split : Summands.ofExpr s with
    | single term => trivial
    | chain op first rest =>
      rcases ofExprOp split with rfl | rfl
      · exact add
      · exact sub
  unfold distributeNode at run
  split at run
  · rename_i left right
    dsimp only at run
    split at run
    · cases run
      exact written
    · rw [multiplyOutOk run, WrittenIn, crossValue (i := v.interpretation),
        Summands.joinOfExpr, Summands.joinOfExpr]
      · exact written
      · intro p
        refine linear right _ (fun q r => propext ?_) fun q r => propext ?_
        · show (p ∧ q ∧ r) ↔ (p ∧ q) ∧ p ∧ r
          tauto
        · show (p ∧ v.sub ∧ q ∧ r) ↔ v.sub ∧ (p ∧ q) ∧ p ∧ r
          tauto
      · refine linear left _ (fun q r => propext ?_) fun q r => propext ?_
        · generalize (Summands.ofExpr right).join.value v.interpretation = p
          show ((q ∧ r) ∧ p) ↔ (q ∧ p) ∧ r ∧ p
          tauto
        · generalize (Summands.ofExpr right).join.value v.interpretation = p
          show ((v.sub ∧ q ∧ r) ∧ p) ↔ v.sub ∧ (q ∧ p) ∧ r ∧ p
          tauto
  · rename_i left right
    dsimp only at run
    split at run
    · cases run
      exact written
    · have whole : ∀ p, (Summands.single right).Linear v.interpretation
          fun q => v.interpretation.bin .div p q := fun _ => trivial
      rw [multiplyOutOk run, WrittenIn, crossValue whole, Summands.joinOfExpr]
      · exact written
      · refine linear left _ (fun q r => propext ?_) fun q r => propext ?_
        · generalize (Summands.single right).join.value v.interpretation = p
          show (v.div ∧ (q ∧ r) ∧ p) ↔ (v.div ∧ q ∧ p) ∧ v.div ∧ r ∧ p
          tauto
        · generalize (Summands.single right).join.value v.interpretation = p
          show (v.div ∧ (v.sub ∧ q ∧ r) ∧ p) ↔ v.sub ∧ (v.div ∧ q ∧ p) ∧ v.div ∧ r ∧ p
          tauto
  · cases run
    exact written

theorem signParityNodeWritten (one : v.const 1) (minus : v.const (-1)) (e : Expr)
    (written : WrittenIn v e) : WrittenIn v (signParityNode e) := by
  unfold signParityNode
  split
  · rename_i first second rest
    have each := writtenFlat.1 written
    dsimp only
    split
    · exact written
    · refine writtenFlat.2 (List.forall_mem_cons.2 ⟨?_, List.forall_mem_cons.2 ⟨one, ?_⟩⟩)
      · show v.const _
        split
        · exact one
        · exact minus
      · exact fun t mem => each t (List.mem_filter.1 mem).1
  · exact written

theorem dropUnitsNodeWritten (zero : v.const 0) (neg : v.sub → v.neg)
    (run : dropUnitsNode e = .ok r) (written : WrittenIn v e) : WrittenIn v r := by
  cases e with
  | flat op first second rest => cases run
  | bin op left right =>
    cases run
    unfold dropUnits
    cases op with
    | add =>
      dsimp only
      split_ifs
      · exact written.2
      · exact written.1
      · exact written
    | sub =>
      dsimp only
      split_ifs
      · exact written.2.1
      · exact ⟨neg written.1, written.2.2⟩
      · exact written
    | mul =>
      dsimp only
      split_ifs
      · exact zero
      · exact written.2
      · exact written.1
      · exact written
    | div => exact written
  | _ => cases run; exact written

theorem takeSignNodeWritten (neg : v.neg) (one : v.const 1)
    (opposite : ∀ n, v.const n → v.const (-n)) (e : Expr) (written : WrittenIn v e) :
    WrittenIn v (takeSignNode e) := by
  unfold takeSignNode
  split
  · split
    · exact written
    · rename_i first second rest n others found
      obtain ⟨_, before, after, all, rfl, _⟩ := splitNegativeOk found
      have each := writtenFlat.1 written
      rw [all] at each
      have onN : v.const n := each (.const n) (by simp)
      have onOthers : ∀ t ∈ before ++ after, WrittenIn v t := by
        intro t mem
        refine each t ?_
        rcases List.mem_append.1 mem with mem | mem
        · exact List.mem_append_left _ mem
        · exact List.mem_append_right _ (List.mem_cons_of_mem _ mem)
      refine ⟨neg, writtenJoin (fun t mem => ?_) one⟩
      split at mem
      · exact onOthers t mem
      · rcases List.mem_cons.1 mem with rfl | mem
        · exact opposite n onN
        · exact onOthers t mem
  · exact written

theorem keepSublist (operands : List Expr) (away : List Signed) :
    (keep operands away).Sublist operands := by
  induction operands generalizing away with
  | nil => exact .refl _
  | cons e rest ih =>
    rw [keep]
    split
    · exact (ih _).cons e
    · exact (ih _).cons_cons e

theorem cancelNodeWritten (zero : v.const 0) (e : Expr) (written : WrittenIn v e) :
    WrittenIn v (cancelNode e) := by
  unfold cancelNode
  split
  · have each := writtenFlat.1 written
    exact writtenJoin (fun t mem => each t ((keepSublist _ _).subset mem)) zero
  · exact written

section Passes

variable {settings : Settings}

theorem restructuredWritten (fold : settings.constants = .fold → ∀ n, v.const n)
    (run : restructured settings e = .ok r) (written : WrittenIn v e) : WrittenIn v r := by
  obtain ⟨combined, o, folds, ordered, rfl, _⟩ := restructuredOk run
  have flat : WrittenIn v (flattenOnce e) := by
    rw [WrittenIn, valueFlattenOnce]
    exact written
  have onCombined : WrittenIn v combined := by
    unfold folded at folds
    split at folds
    · rename_i strategy
      refine fixedPointRelated v.compatible (fun stepped => ?_) folds flat
      exact v.compatible.bottomUpM (foldConstantsNodeWritten (fold strategy)) stepped
    · cases folds
      exact flat
  rw [WrittenIn, valueUnflattenOnce, orderOperandsValue v.commutative ordered]
  exact onCombined

theorem distributedWritten (fold : settings.constants = .fold → ∀ n, v.const n)
    (run : distributed settings e = .ok r) (written : WrittenIn v e) : WrittenIn v r := by
  refine fixedPointKeeps (P := WrittenIn v) (fun {b c} before stepped => ?_) run written
  obtain ⟨chains, unflattened, again⟩ := bindOk.1 stepped
  obtain ⟨crossed, multiplied, last⟩ := bindOk.1 again
  refine restructuredWritten fold last (v.compatible.bottomUpM distributeNodeWritten multiplied ?_)
  rw [unflattenValue v.interpretation unflattened]
  exact before

theorem cleanSignsWritten (one : v.const 1) (minus : v.const (-1))
    (run : cleanSigns settings e = .ok r) (written : WrittenIn v e) : WrittenIn v r := by
  obtain ⟨flat, flattened, run⟩ := bindOk.1 run
  obtain ⟨ordered, sorted, last⟩ := bindOk.1 run
  rw [WrittenIn, unflattenValue _ last]
  refine v.compatible.bottomUp (signParityNodeWritten one minus) ordered ?_
  rw [orderProductsValue v.commutative sorted, flattenValue _ flattened]
  exact written

theorem cleanUnitsWritten (zero : v.const 0) (neg : v.sub → v.neg)
    (run : cleanUnits settings e = .ok r) (written : WrittenIn v e) : WrittenIn v r :=
  fixedPointRelated v.compatible
    (fun stepped => v.compatible.bottomUpM (dropUnitsNodeWritten zero neg) stepped) run written

theorem takeSignsWritten (neg : v.neg) (one : v.const 1) (opposite : ∀ n, v.const n → v.const (-n))
    (run : takeSigns settings e = .ok r) (written : WrittenIn v e) : WrittenIn v r := by
  obtain ⟨flat, flattened, run⟩ := bindOk.1 run
  refine fixedPointRelated v.compatible (fun {b c} stepped => ?_) run ?_
  · cases stepped
    exact v.compatible.bottomUp (takeSignNodeWritten neg one opposite) b
  · rw [flattenValue _ flattened]
    exact written

theorem cancelOppositesWritten (zero : v.const 0) (run : cancelOpposites settings e = .ok r)
    (written : WrittenIn v e) : WrittenIn v r := by
  obtain ⟨flat, flattened, run⟩ := bindOk.1 run
  refine fixedPointRelated v.compatible (fun {b c} stepped => ?_) run ?_
  · cases stepped
    exact v.compatible.bottomUp (cancelNodeWritten zero) b
  · rw [flattenValue _ flattened]
    exact written

end Passes

section Preparing

variable {settings : Settings} {v' : Vocabulary}

theorem sweepWritten {f : Expr → Except Fault Expr}
    (const : ∀ n r, v.const n → f (.const n) = .ok r → WrittenIn v' r)
    (var : ∀ name r, f (.var name) = .ok r → WrittenIn v' r)
    (neg : ∀ a r, v.neg → WrittenIn v' a → f (.neg a) = .ok r → WrittenIn v' r)
    (bin : ∀ op l r' r, (op = .sub → v.sub) → (op = .div → v.div) → WrittenIn v' l →
      WrittenIn v' r' → f (.bin op l r') = .ok r → WrittenIn v' r)
    (flat : ∀ op a b more r, (∀ t ∈ a :: b :: more, WrittenIn v' t) →
      f (.flat op a b more) = .ok r → WrittenIn v' r)
    (run : e.bottomUpM f = .ok r) (written : WrittenIn v e) : WrittenIn v' r := by
  refine bottomUpInduction (P := fun e r => WrittenIn v e → WrittenIn v' r) ?_ ?_ ?_ ?_ ?_ run written
  · exact fun n r last known => const n r known last
  · exact fun name r last _ => var name r last
  · exact fun arg a r worked last known => neg a r known.1 (worked known.2) last
  · intro op left right l r' r onLeft onRight last known
    cases op with
    | add => exact bin .add l r' r (by simp) (by simp) (onLeft known.1) (onRight known.2) last
    | mul => exact bin .mul l r' r (by simp) (by simp) (onLeft known.1) (onRight known.2) last
    | sub =>
      exact bin .sub l r' r (fun _ => known.1) (by simp) (onLeft known.2.1) (onRight known.2.2) last
    | div =>
      exact bin .div l r' r (by simp) (fun _ => known.1) (onLeft known.2.1) (onRight known.2.2) last
  · intro op first second rest a b more r worked last known
    refine flat op a b more r (fun t mem => ?_) last
    obtain ⟨e, member, made⟩ := forallTwoRight worked mem
    exact made (writtenFlat.1 known e member)

def plainVocabulary (settings : Settings) (div : Prop) : Vocabulary where
  const n := settings.constants = .expand → n = 0 ∨ n = 1 ∨ n = -1
  neg := False
  sub := False
  div := div

theorem subToAddWritten (written : WrittenIn { v with neg := True } e) :
    WrittenIn { v with neg := True, sub := False } (subToAdd e) := by
  refine sweepWritten ?_ ?_ ?_ ?_ ?_ (bottomUpMPure subToAddNode e) written
  · intro n r known last
    cases last
    exact known
  · intro name r last
    cases last
    trivial
  · intro a r _ inner last
    cases last
    exact ⟨trivial, inner⟩
  · intro op l r' r sub div onLeft onRight last
    cases last
    cases op with
    | add => exact ⟨onLeft, onRight⟩
    | mul => exact ⟨onLeft, onRight⟩
    | sub => exact ⟨onLeft, trivial, onRight⟩
    | div => exact ⟨div rfl, onLeft, onRight⟩
  · intro op a b more r each last
    cases last
    exact writtenFlat.2 each

theorem onesWritten (zero : v.const 0) (one : v.const 1) (n : Nat) : WrittenIn v (ones n) := by
  induction n with
  | zero => exact zero
  | succ n ih => exact ⟨ih, one⟩

theorem constToOnesWritten (zero : v'.const 0) (one : v'.const 1) (neg : v'.neg)
    (sub : v.sub → v'.sub) (div : v.div → v'.div) (run : constToOnes settings e = .ok r)
    (written : WrittenIn v e) : WrittenIn v' r := by
  refine sweepWritten ?_ ?_ ?_ ?_ ?_ run written
  · intro n r _ last
    rcases constToOnesNodeOk last with ⟨m, _, rfl⟩ | ⟨other, _⟩
    · split
      · exact ⟨neg, onesWritten zero one _⟩
      · exact onesWritten zero one _
    · cases other
  · intro name r last
    rw [constToOnesNodeOther rfl last]
    trivial
  · intro a r _ inner last
    rw [constToOnesNodeOther rfl last]
    exact ⟨neg, inner⟩
  · intro op l r' r allowed quotient onLeft onRight last
    rw [constToOnesNodeOther rfl last]
    cases op with
    | add => exact ⟨onLeft, onRight⟩
    | mul => exact ⟨onLeft, onRight⟩
    | sub => exact ⟨sub (allowed rfl), onLeft, onRight⟩
    | div => exact ⟨div (quotient rfl), onLeft, onRight⟩
  · intro op a b more r each last
    rw [constToOnesNodeOther rfl last]
    exact writtenFlat.2 each

theorem negToMulWritten (minus : v.const (-1)) (written : WrittenIn { v with neg := True } e) :
    WrittenIn v (negToMul e) := by
  refine sweepWritten ?_ ?_ ?_ ?_ ?_ (bottomUpMPure negToMulNode e) written
  · intro n r known last
    cases last
    exact known
  · intro name r last
    cases last
    trivial
  · intro a r _ inner last
    cases last
    exact ⟨minus, inner⟩
  · intro op l r' r sub div onLeft onRight last
    cases last
    cases op with
    | add => exact ⟨onLeft, onRight⟩
    | mul => exact ⟨onLeft, onRight⟩
    | sub => exact ⟨sub rfl, onLeft, onRight⟩
    | div => exact ⟨div rfl, onLeft, onRight⟩
  · intro op a b more r each last
    cases last
    exact writtenFlat.2 each

theorem preparedWritten {div : Prop}
    (written : WrittenIn { const := fun _ => True, neg := True, sub := True, div := div } e)
    (run : prepared settings e = .ok r) : WrittenIn (plainVocabulary settings div) r := by
  have sums : WrittenIn { const := fun _ => True, neg := True, sub := False, div := div }
      (subToAdd e) := subToAddWritten (v := ⟨fun _ => True, True, True, div⟩) written
  unfold prepared at run
  cases strategy : settings.constants with
  | fold =>
    rw [strategy] at run
    cases run
    refine negToMulWritten (fun expand => by rw [strategy] at expand; cases expand) ?_
    exact sums.mono (fun _ _ expand => by rw [strategy] at expand; cases expand) id id id
  | expand =>
    rw [strategy] at run
    obtain ⟨ones, expanded, last⟩ := bindOk.1 run
    cases last
    refine negToMulWritten (fun _ => .inr (.inr rfl)) ?_
    refine constToOnesWritten (v := ⟨fun _ => True, True, False, div⟩) (fun _ => .inl rfl)
      (fun _ => .inr (.inl rfl)) trivial id id expanded sums

theorem signedWritten {div : Prop} (run : signed settings e = .ok r)
    (written : WrittenIn (plainVocabulary settings div) e) :
    WrittenIn { plainVocabulary settings div with neg := True } r := by
  obtain ⟨products, multiplied, run⟩ := bindOk.1 run
  obtain ⟨signs, reduced, run⟩ := bindOk.1 run
  obtain ⟨units, cleaned, last⟩ := bindOk.1 run
  have onProducts := distributedWritten
    (fun fold n expand => by rw [fold] at expand; cases expand) multiplied written
  have onSigns := cleanSignsWritten (fun _ => .inr (.inl rfl)) (fun _ => .inr (.inr rfl)) reduced
    onProducts
  have onUnits := cleanUnitsWritten (fun _ => .inl rfl) id cleaned onSigns
  refine takeSignsWritten trivial (fun _ => .inr (.inl rfl)) (fun n known expand => ?_) last
    (onUnits.mono (fun _ => id) (fun _ => trivial) id id)
  have unit := known expand
  omega

end Preparing

end Normalize

end ArithEquiv
