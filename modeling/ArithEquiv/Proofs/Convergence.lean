import ArithEquiv.Proofs.Resorting
import ArithEquiv.Proofs.Sizes

/-! Loops that come to an end. A loop whose trees go through numbered stages, a lower one after every
step that changes something, returns once the limits leave room for the stages and for the trees in
them. What may still stand in the way is a number with too many digits, and no higher limit would
help. -/
namespace ArithEquiv

def Returns {α : Type} (x : Except Fault α) : Prop :=
  (∃ a, x = .ok a) ∨ x = .error (.numeral .tooLong)

theorem returnsOk {α : Type} (a : α) : Returns (.ok a) := .inl ⟨a, rfl⟩

theorem Returns.bind {α β : Type} {x : Except Fault α} {f : α → Except Fault β} (first : Returns x)
    (rest : ∀ a, x = .ok a → Returns (f a)) : Returns (x >>= f) := by
  rcases first with ⟨a, rfl⟩ | rfl
  · exact rest a rfl
  · exact .inr rfl

theorem Returns.mapM {α β : Type} {f : α → Except Fault β} {xs : List α}
    (each : ∀ x ∈ xs, Returns (f x)) : Returns (xs.mapM f) := by
  induction xs with
  | nil => exact returnsOk []
  | cons x xs ih =>
    rw [List.mapM_cons]
    refine (each x (by simp)).bind fun y _ => ?_
    exact (ih fun t mem => each t (by simp [mem])).bind fun ys _ => returnsOk (y :: ys)

theorem Returns.bottomUpM {f : Expr → Except Fault Expr} (node : ∀ e, Returns (f e)) (e : Expr) :
    Returns (e.bottomUpM f) := by
  induction e with
  | const n => rw [Expr.bottomUpMConst]; exact node _
  | var name => rw [Expr.bottomUpMVar]; exact node _
  | neg arg ih => rw [Expr.bottomUpMNeg]; exact ih.bind fun a _ => node _
  | bin op left right ihl ihr =>
    rw [Expr.bottomUpMBin]
    exact ihl.bind fun l _ => ihr.bind fun r _ => node _
  | flat op first second rest ihf ihs ihr =>
    rw [Expr.bottomUpMFlat]
    exact ihf.bind fun a _ => ihs.bind fun b _ => (Returns.mapM ihr).bind fun more _ => node _

structure Roomy (settings : Settings) (n : Nat) : Prop where
  rounds : (n : Int) ≤ settings.maxIterations
  nodes : (n : Int) ≤ settings.maxNodes

theorem Roomy.mono {settings : Settings} {m n : Nat} (room : Roomy settings n) (less : m ≤ n) :
    Roomy settings m :=
  ⟨(Int.ofNat_le.2 less).trans room.rounds, (Int.ofNat_le.2 less).trans room.nodes⟩

namespace Normalize

open ArithEquiv.Expr

section Loop

variable {settings : Settings} {pass : String} {step : Expr → Except Fault Expr} {e r : Expr}
  {n : Nat}

structure Staged (step : Expr → Except Fault Expr) (n : Nat) (stage : Nat → Expr → Prop) : Prop where
  light : ∀ {m e}, stage m e → e.weight ≤ n
  returns : ∀ {m e}, stage m e → Returns (step e)
  advances : ∀ {m e r}, stage m e → step e = .ok r → r = e ∨ ∃ k, k < m ∧ stage k r

theorem checkLight (room : Roomy settings n) (light : e.weight ≤ n) :
    checkSize settings pass e = .ok () := by
  have nodes := room.nodes
  have size := sizeWeight e
  rw [checkSize, if_neg]
  omega

theorem Staged.settle {stage : Nat → Expr → Prop} (staged : Staged step n stage)
    (room : Roomy settings n) {more : Nat} {previous current : Expr}
    (near : previous = current ∨ ∃ k, k < more ∧ stage k current) :
    Returns (settle settings pass step more previous current) := by
  induction more generalizing previous current with
  | zero =>
    obtain rfl := near.resolve_right fun ⟨k, below, _⟩ => Nat.not_lt_zero k below
    unfold Normalize.settle
    rw [if_pos rfl]
    exact returnsOk previous
  | succ more ih =>
    by_cases same : previous = current
    · unfold Normalize.settle
      rw [if_pos same]
      exact returnsOk current
    · obtain ⟨k, below, at'⟩ := near.resolve_left same
      unfold Normalize.settle
      rw [if_neg same, checkLight room (staged.light at')]
      refine (staged.returns at').bind fun next stepped => ih ?_
      rcases staged.advances at' stepped with rfl | ⟨j, lower, at''⟩
      · exact .inl rfl
      · exact .inr ⟨j, by omega, at''⟩

theorem Staged.loop {stage : Nat → Expr → Prop} (staged : Staged step n stage)
    (room : Roomy settings n) {m : Nat} (start : stage m e) (few : m < n) :
    Returns (toFixedPoint settings pass step e) := by
  refine (staged.returns start).bind fun first stepped => staged.settle room ?_
  have rounds := room.rounds
  rcases staged.advances start stepped with rfl | ⟨k, lower, at'⟩
  · exact .inl rfl
  · exact .inr ⟨k, by omega, at'⟩

end Loop

section Once

variable {settings : Settings} {pass : String} {e : Expr} {n : Nat}

theorem onceReturns {g : Expr → Expr} (settles : ∀ e, g (g e) = g e)
    (kept : ∀ e, (g e).weight = e.weight) (room : Roomy settings n) (two : 2 ≤ n)
    (light : e.weight ≤ n) :
    Returns (toFixedPoint settings pass (fun e => (pure (g e) : Except Fault Expr)) e) := by
  have staged : Staged (fun e => (pure (g e) : Except Fault Expr)) n
      fun m t => t.weight ≤ n ∧ (m = 0 → g t = t) := by
    refine ⟨And.left, fun _ => returnsOk _, fun {m t r} start stepped => ?_⟩
    obtain rfl : g t = r := Except.ok.inj stepped
    match m with
    | 0 => exact .inl (start.2 rfl)
    | m + 1 => exact .inr ⟨0, Nat.succ_pos m, by rw [kept]; exact start.1, fun _ => settles t⟩
  exact staged.loop room ⟨light, fun none => absurd none Nat.one_ne_zero⟩ two

theorem flattenReturns (room : Roomy settings n) (two : 2 ≤ n) (light : e.weight ≤ n) :
    Returns (flatten settings e) :=
  onceReturns (fun e => flattenOnceFixed (flattenOnceFlattened e)) (valueFlattenOnce weights) room
    two light

theorem unflattenReturns (room : Roomy settings n) (two : 2 ≤ n) (light : e.weight ≤ n) :
    Returns (unflatten settings e) :=
  onceReturns (fun e => unflattenOnceFixed (unflattenOnceUnflattened e))
    (valueUnflattenOnce weights) room two light

theorem orderSumsReturns (room : Roomy settings n) (two : 2 ≤ n) (light : e.weight ≤ n) :
    Returns (orderSums settings e) :=
  onceReturns (orderOnceTwice settings.hash .add) (orderWeight settings.hash .add) room two light

theorem orderProductsReturns (room : Roomy settings n) (two : 2 ≤ n) (light : e.weight ≤ n) :
    Returns (orderProducts settings e) :=
  onceReturns (orderOnceTwice settings.hash .mul) (orderWeight settings.hash .mul) room two light

end Once

section Repeated

variable {settings : Settings} {pass : String} {step : Expr → Except Fault Expr} {e r : Expr}
  {n : Nat} {rank : AssocOp → Expr → Expr → Bool} {g : Expr → Expr} {P : Expr → Prop}

theorem Resorts.weight (resorts : Resorts rank g) (flattened : Flattened e) :
    (g e).weight = e.weight := by
  induction flattened with
  | const n => rw [resorts.const]
  | var name => rw [resorts.var]
  | neg _ ih => rw [resorts.neg]; exact congrArg (· + 1) ih
  | bin other _ _ ihl ihr =>
    rw [resorts.bin _ _ other]
    exact congrArg₂ (· + · + 1) ihl ihr
  | @flat op first second rest _ _ ih =>
    have moved := List.mergeSort_perm (first :: second :: rest) (rank op)
    have kept : ((((first :: second :: rest).mergeSort (rank op)).map g).map fun e => e.weight + 1) =
        ((first :: second :: rest).mergeSort (rank op)).map fun e => e.weight + 1 := by
      rw [List.map_map]
      exact List.map_congr_left fun e mem => congrArg (· + 1) (ih e (moved.mem_iff.1 mem))
    have many : 2 ≤ (((first :: second :: rest).mergeSort (rank op)).map g).length := by
      rw [List.length_map, List.length_mergeSort]
      exact Nat.le_add_left 2 rest.length
    have whole := weightFlat op first second rest
    rw [← (moved.map fun e => e.weight + 1).sum_eq, ← kept] at whole
    rw [resorts.flat]
    match ((first :: second :: rest).mergeSort (rank op)).map g, many, whole with
    | a :: b :: more, _, whole =>
      have swept := weightFlat op a b more
      show (Expr.flat op a b more).weight = _
      omega

theorem Resorts.run (resorts : Resorts rank g) (flattened : Flattened e) (holds : P e)
    (keeps : ∀ {t}, P t → P (g t)) (steps : ∀ {t r}, P t → step t = .ok r → r = g t)
    (run : toFixedPoint settings pass step e = .ok r) (enough : e.weight ≤ n) : r = g^[n] e := by
  have reached : P r ∧ ∃ k, r = g^[k] e := by
    refine fixedPointKeeps (P := fun t => P t ∧ ∃ k, t = g^[k] e) (fun {a b} before stepped => ?_)
      run ⟨holds, 0, rfl⟩
    obtain ⟨inside, k, same⟩ := before
    rw [steps inside stepped]
    exact ⟨keeps inside, k + 1, by rw [same, Function.iterate_succ_apply']⟩
  obtain ⟨inside, k, same⟩ := reached
  have stays : g r = r := (steps inside (fixedPointStable run)).symm
  have settled : Function.IsFixedPt g (g^[n] e) := resorts.settles flattened enough
  calc
    r = g^[n] r := (Function.iterate_fixed stays n).symm
    _ = g^[k] (g^[n] e) := by
      rw [same, ← Function.iterate_add_apply, ← Function.iterate_add_apply, Nat.add_comm]
    _ = g^[n] e := Function.iterate_fixed settled k

theorem Resorts.iterateWeight (resorts : Resorts rank g) (flattened : Flattened e) (k : Nat) :
    (g^[k] e).weight = e.weight := by
  obtain ⟨_, repeated⟩ := resorts.iterate k
  exact repeated.weight flattened

theorem iterateKeeps (keeps : ∀ {t}, P t → P (g t)) (holds : P e) (k : Nat) : P (g^[k] e) := by
  induction k with
  | zero => exact holds
  | succ k ih => rw [Function.iterate_succ_apply']; exact keeps ih

theorem Resorts.staged (resorts : Resorts rank g) (flattened : Flattened e) (holds : P e)
    (keeps : ∀ {t}, P t → P (g t)) (steps : ∀ {t r}, P t → step t = .ok r → r = g t)
    (returns : ∀ {t}, P t → t.weight ≤ n → Returns (step t)) (light : e.weight ≤ n) :
    Staged step n fun m t => ∃ k, e.weight = m + k ∧ t = g^[k] e where
  light := by
    rintro m _ ⟨k, _, rfl⟩
    rwa [resorts.iterateWeight flattened]
  returns := by
    rintro m _ ⟨k, _, rfl⟩
    refine returns (iterateKeeps (P := P) keeps holds k) ?_
    rwa [resorts.iterateWeight flattened]
  advances := by
    rintro m _ r ⟨k, total, rfl⟩ stepped
    rw [steps (iterateKeeps (P := P) keeps holds k) stepped]
    match m with
    | 0 => exact .inl (resorts.settles flattened (by omega))
    | m + 1 =>
      exact .inr ⟨m, Nat.lt_succ_self m, k + 1, by omega, (Function.iterate_succ_apply' g k e).symm⟩

theorem orderOperandsStep {t : Expr} (run : (orderSums settings t >>= orderProducts settings) = .ok r) :
    r = orderBoth settings.hash t := by
  obtain ⟨sums, first, second⟩ := bindOk.1 run
  rw [orderProductsRun second, orderSumsRun first]
  rfl

theorem orderOperandsRounds (flattened : Flattened e) (run : orderOperands settings e = .ok r)
    (enough : e.weight ≤ n) : r = (orderBoth settings.hash)^[n] e := by
  obtain ⟨_, resorts⟩ := orderBothResorts settings.hash
  exact resorts.run (P := fun _ => True) flattened trivial (fun _ => trivial)
    (fun _ => orderOperandsStep) run enough

theorem orderOperandsReturns (room : Roomy settings n) (flattened : Flattened e)
    (light : e.weight < n) : Returns (orderOperands settings e) := by
  obtain ⟨_, resorts⟩ := orderBothResorts settings.hash
  have two : 2 ≤ n := Nat.le_trans (Nat.succ_le_succ (weightPositive e)) light
  have staged := resorts.staged (P := fun _ => True) flattened trivial (fun _ => trivial)
    (fun _ => orderOperandsStep) (fun {t} _ small => ?_) (Nat.le_of_lt light)
  · exact staged.loop room ⟨0, rfl, rfl⟩ light
  refine (orderSumsReturns room two small).bind fun sums first => ?_
  refine orderProductsReturns room two ?_
  rw [orderSumsRun first, orderWeight]
  exact small

end Repeated

end Normalize

end ArithEquiv
