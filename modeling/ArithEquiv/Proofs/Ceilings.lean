import ArithEquiv.Proofs.Soundness

/-! Limits decide whether a run returns, never what it returns. They are consulted before the next
application of a step, before a constant is written out and before a product is built, and in each of
these places they either refuse or change nothing. A run that returns therefore returns the same under
any limits that are no lower, and no two choices of limits lead to different verdicts. -/
namespace ArithEquiv

def Retained {α : Type} (x y : Except Fault α) : Prop := ∀ a, x = .ok a → y = .ok a

theorem Retained.refl {α : Type} (x : Except Fault α) : Retained x x := fun _ run => run

theorem Retained.bind {α β : Type} {x y : Except Fault α} {f g : α → Except Fault β} (first : Retained x y)
    (rest : ∀ a, Retained (f a) (g a)) : Retained (x >>= f) (y >>= g) := by
  intro b run
  obtain ⟨a, ran, last⟩ := bindOk.1 run
  exact bindOk.2 ⟨a, first a ran, rest a b last⟩

theorem Retained.bottomUpM {f g : Expr → Except Fault Expr} (node : ∀ e, Retained (f e) (g e)) (e : Expr) :
    Retained (e.bottomUpM f) (e.bottomUpM g) := by
  intro r run
  refine Expr.bottomUpInduction (P := fun e r => e.bottomUpM g = .ok r) ?_ ?_ ?_ ?_ ?_ run
  · intro n r last
    rw [Expr.bottomUpMConst]
    exact node _ r last
  · intro name r last
    rw [Expr.bottomUpMVar]
    exact node _ r last
  · intro arg a r worked last
    rw [Expr.bottomUpMNeg]
    exact bindOk.2 ⟨a, worked, node _ r last⟩
  · intro op left right l r' r onLeft onRight last
    rw [Expr.bottomUpMBin]
    exact bindOk.2 ⟨l, onLeft, bindOk.2 ⟨r', onRight, node _ r last⟩⟩
  · intro op first second rest a b more r worked last
    obtain ⟨onFirst, worked⟩ := List.forall₂_cons.1 worked
    obtain ⟨onSecond, worked⟩ := List.forall₂_cons.1 worked
    rw [Expr.bottomUpMFlat]
    exact bindOk.2 ⟨a, onFirst, bindOk.2 ⟨b, onSecond,
      bindOk.2 ⟨more, mapMOk.2 worked, node _ r last⟩⟩⟩

namespace Settings

structure Within (s t : Settings) : Prop where
  constants : s.constants = t.constants
  hash : s.hash = t.hash
  iterations : s.maxIterations ≤ t.maxIterations
  nodes : s.maxNodes ≤ t.maxNodes

def widened (s t : Settings) : Settings where
  constants := s.constants
  maxIterations := max s.maxIterations t.maxIterations
  maxNodes := max s.maxNodes t.maxNodes
  hash := s.hash

theorem withinWidened (s t : Settings) : s.Within (s.widened t) :=
  ⟨rfl, rfl, Int.le_max_left _ _, Int.le_max_left _ _⟩

theorem withinWidenedRight {s t : Settings} (constants : s.constants = t.constants)
    (hash : s.hash = t.hash) : t.Within (s.widened t) :=
  ⟨constants.symm, hash.symm, Int.le_max_right _ _, Int.le_max_right _ _⟩

end Settings

namespace Normalize

section Loop

variable {s t : Settings} {pass : String} {step step' : Expr → Except Fault Expr}

theorem checkSizeRetained (within : s.Within t) (e : Expr) :
    Retained (checkSize s pass e) (checkSize t pass e) := by
  intro a run
  unfold checkSize at run ⊢
  split at run
  · cases run
  · rename_i small
    have nodes := within.nodes
    rw [if_neg (by omega)]

theorem settleRetained (within : s.Within t) (steps : ∀ e, Retained (step e) (step' e)) {more more' : Nat}
    (room : more ≤ more') (previous current : Expr) :
    Retained (settle s pass step more previous current)
      (settle t pass step' more' previous current) := by
  induction more generalizing more' previous current with
  | zero =>
    intro r run
    rcases settleOk run with ⟨same, rfl⟩ | ⟨_, _, _, impossible, _⟩
    · unfold settle
      exact if_pos same
    · cases impossible
  | succ more ih =>
    intro r run
    obtain ⟨more', rfl⟩ : ∃ n, more' = n + 1 := ⟨more' - 1, by omega⟩
    unfold settle at run ⊢
    split at run
    · rename_i same
      rw [if_pos same]
      exact run
    · rename_i differ
      rw [if_neg differ]
      cases size : checkSize s pass current with
      | error fault => simp only [size] at run; cases run
      | ok _ =>
        simp only [size] at run
        simp only [checkSizeRetained within current _ size]
        exact Retained.bind (steps current) (fun next => ih (by omega) current next) r run

theorem toFixedPointRetained (within : s.Within t) (steps : ∀ e, Retained (step e) (step' e)) (e : Expr) :
    Retained (toFixedPoint s pass step e) (toFixedPoint t pass step' e) := by
  have iterations := within.iterations
  exact Retained.bind (steps e) fun first => settleRetained within steps (by omega) e first

end Loop

section Passes

variable {s t : Settings}

theorem flattenRetained (within : s.Within t) (e : Expr) : Retained (flatten s e) (flatten t e) :=
  toFixedPointRetained within (fun _ => .refl _) e

theorem unflattenRetained (within : s.Within t) (e : Expr) : Retained (unflatten s e) (unflatten t e) :=
  toFixedPointRetained within (fun _ => .refl _) e

theorem orderSumsRetained (within : s.Within t) (e : Expr) : Retained (orderSums s e) (orderSums t e) := by
  unfold orderSums
  rw [within.hash]
  exact toFixedPointRetained within (fun _ => .refl _) e

theorem orderProductsRetained (within : s.Within t) (e : Expr) :
    Retained (orderProducts s e) (orderProducts t e) := by
  unfold orderProducts
  rw [within.hash]
  exact toFixedPointRetained within (fun _ => .refl _) e

theorem orderOperandsRetained (within : s.Within t) (e : Expr) :
    Retained (orderOperands s e) (orderOperands t e) :=
  toFixedPointRetained within
    (fun e => .bind (orderSumsRetained within e) fun sums => orderProductsRetained within sums) e

theorem foldedRetained (within : s.Within t) (e : Expr) : Retained (folded s e) (folded t e) := by
  unfold folded
  rw [within.constants]
  cases t.constants with
  | fold => exact toFixedPointRetained within (fun _ => .refl _) e
  | expand => exact .refl _

theorem restructuredRetained (within : s.Within t) (e : Expr) :
    Retained (restructured s e) (restructured t e) :=
  .bind (flattenRetained within e) fun flat => .bind (foldedRetained within flat) fun combined =>
    .bind (orderOperandsRetained within combined) fun ordered => unflattenRetained within ordered

theorem multiplyOutRetained (within : s.Within t) (op : BinOp) (left right : Summands) :
    Retained (multiplyOut s op left right) (multiplyOut t op left right) := by
  intro r run
  have nodes := within.nodes
  simp only [multiplyOut] at run ⊢
  split at run
  · cases run
  · rw [if_neg (by omega)]
    exact run

theorem distributeNodeRetained (within : s.Within t) (e : Expr) :
    Retained (distributeNode s e) (distributeNode t e) := by
  unfold distributeNode
  split
  · dsimp only
    split
    · exact .refl _
    · exact multiplyOutRetained within _ _ _
  · dsimp only
    split
    · exact .refl _
    · exact multiplyOutRetained within _ _ _
  · exact .refl _

theorem distributedRetained (within : s.Within t) (e : Expr) :
    Retained (distributed s e) (distributed t e) :=
  toFixedPointRetained within
    (fun e => .bind (unflattenRetained within e) fun chains =>
      .bind (.bottomUpM (distributeNodeRetained within) chains) fun crossed =>
        restructuredRetained within crossed) e

theorem constToOnesNodeRetained (within : s.Within t) (e : Expr) :
    Retained (constToOnesNode s e) (constToOnesNode t e) := by
  intro r run
  have nodes := within.nodes
  unfold constToOnesNode at run ⊢
  split at run
  · split at run
    · cases run
    · rw [if_neg (by omega)]
      exact run
  · exact run

theorem preparedRetained (within : s.Within t) (e : Expr) : Retained (prepared s e) (prepared t e) := by
  unfold prepared
  rw [within.constants]
  cases t.constants with
  | fold => exact .refl _
  | expand => exact .bind (.bottomUpM (constToOnesNodeRetained within) _) fun _ => .refl _

theorem cleanSignsRetained (within : s.Within t) (e : Expr) : Retained (cleanSigns s e) (cleanSigns t e) :=
  .bind (flattenRetained within e) fun flat => .bind (orderProductsRetained within flat) fun ordered =>
    unflattenRetained within (ordered.bottomUp signParityNode)

theorem cleanUnitsRetained (within : s.Within t) (e : Expr) : Retained (cleanUnits s e) (cleanUnits t e) :=
  toFixedPointRetained within (fun _ => .refl _) e

theorem takeSignsRetained (within : s.Within t) (e : Expr) : Retained (takeSigns s e) (takeSigns t e) :=
  .bind (flattenRetained within e) fun flat => toFixedPointRetained within (fun _ => .refl _) flat

theorem cancelOppositesRetained (within : s.Within t) (e : Expr) :
    Retained (cancelOpposites s e) (cancelOpposites t e) :=
  .bind (flattenRetained within e) fun flat => toFixedPointRetained within (fun _ => .refl _) flat

theorem signedRetained (within : s.Within t) (e : Expr) : Retained (signed s e) (signed t e) :=
  .bind (distributedRetained within e) fun products => .bind (cleanSignsRetained within products) fun signs =>
    .bind (cleanUnitsRetained within signs) fun units => takeSignsRetained within units

theorem normalizedRetained (within : s.Within t) (e : Expr) : Retained (normalized s e) (normalized t e) :=
  .bind (preparedRetained within e) fun start => .bind (signedRetained within start) fun terms =>
    .bind (cancelOppositesRetained within terms) fun left => restructuredRetained within left

end Passes

end Normalize

theorem limitsOnlyRefuse {s t : Settings} :
    (s.Within t → ∀ (e r : Expr) (journal journal' : Journal),
      (Normalize.normalForm s e journal).1 = .ok r →
        (Normalize.normalForm t e journal').1 = .ok r) ∧
    (s.constants = t.constants → s.hash = t.hash →
      ∀ (first second : String) (verdict verdict' : Bool) (journal journal' : Journal),
        (equivalent s first second journal).1 = .ok verdict →
          (equivalent t first second journal').1 = .ok verdict' → verdict = verdict') := by
  constructor
  · intro within e r journal journal' run
    rw [Normalize.normalFormGives] at run ⊢
    exact Normalize.normalizedRetained within e r run
  · intro constants hash first second verdict verdict' journal journal' run run'
    obtain ⟨a, b, readA, readB, r, u, runR, runU, rfl⟩ := equivalentOk run
    obtain ⟨a', b', readA', readB', r', u', runR', runU', rfl⟩ := equivalentOk run'
    obtain rfl := Except.ok.inj (readA.symm.trans readA')
    obtain rfl := Except.ok.inj (readB.symm.trans readB')
    -- both runs return under the higher limits, where there is one result
    have left := s.withinWidened t
    have right := Settings.withinWidenedRight constants hash
    obtain rfl := Except.ok.inj ((Normalize.normalizedRetained left a r runR).symm.trans
      (Normalize.normalizedRetained right a r' runR'))
    obtain rfl := Except.ok.inj ((Normalize.normalizedRetained left b u runU).symm.trans
      (Normalize.normalizedRetained right b u' runU'))
    rfl

def cramped : Settings := { maxIterations := 2, maxNodes := 7 }

def shiftedProduct : Expr := .bin .mul (.bin .add (.var "x") (.const 1)) (.var "y")

theorem limitsOnlyRefuseCramped :
    (cramped.Within {} ∧
      ∃ r, (Normalize.normalForm cramped shiftedProduct {}).1 = .ok r ∧
        (Normalize.normalForm {} shiftedProduct {}).1 = .ok r) ∧
    (cramped.constants = ({} : Settings).constants ∧ cramped.hash = ({} : Settings).hash ∧
      ∃ v w, (equivalent cramped "(x+1)*y" "y+x*y" {}).1 = .ok v ∧
        (equivalent {} "(x+1)*y" "y+x*y" {}).1 = .ok w ∧ v = w) := by
  have within : cramped.Within {} := ⟨rfl, rfl, by decide, by decide⟩
  have only := @limitsOnlyRefuse cramped {}
  have run : (Normalize.normalForm cramped shiftedProduct {}).1 =
      .ok (.bin .add (.var "y") (.bin .mul (.var "x") (.var "y"))) := by
    rw [cramped, Node.digestEq]
    decide +kernel
  have verdict : (equivalent cramped "(x+1)*y" "y+x*y" {}).1 = .ok true := by
    rw [cramped, Node.digestEq]
    decide +kernel
  have verdict' : (equivalent {} "(x+1)*y" "y+x*y" {}).1 = .ok true := by
    rw [Node.digestEq]
    decide +kernel
  exact ⟨⟨within, _, run, only.1 within _ _ {} {} run⟩, rfl, rfl, true, true, verdict,
    verdict', only.2 rfl rfl _ _ _ _ {} {} verdict verdict'⟩

end ArithEquiv
