import ArithEquiv.Proofs.Runs
import Mathlib.Data.List.Iterate
import Mathlib.Order.Bounds.Basic
import Mathlib.Order.Nat

/-! The trees that a loop goes through are the iterates of its step. It ends as soon as the step has
changed nothing, has given too large a tree or has been applied as often as it may be, and of these
signs the first in this order decides. So what a loop gives, and what its step is applied to on the
way, is known from the iterates and the limits alone. -/
namespace ArithEquiv.Normalize

abbrev Noted := ExceptT Fault (StateM (List Expr))

def noting (step : Expr → Expr) (e : Expr) : Noted Expr := fun seen => (.ok (step e), seen ++ [e])

def attempting (step : Expr → Except Fault Expr) (e : Expr) : Noted Expr :=
  fun seen => (step e, seen ++ [e])

def watched (settings : Settings) (pass : String) (step : Expr → Expr) (e : Expr) :
    Except Fault Expr × List Expr :=
  (toFixedPoint settings pass (noting step) e : Noted Expr) []

def SettlesAt (step : Expr → Expr) (e : Expr) (n : Nat) : Prop :=
  IsLeast {k | 1 ≤ k ∧ step^[k] e = step^[k - 1] e} n

/-- The limits let a step be applied `n` times. What it gives in the end may be of any size. -/
structure Allowed (settings : Settings) (step : Expr → Expr) (e : Expr) (n : Nat) : Prop where
  rounds : (n : Int) ≤ max 1 settings.maxIterations
  nodes : ∀ k, 1 ≤ k → k < n → ((step^[k] e).size : Int) ≤ settings.maxNodes

structure Goes (settings : Settings) (previous current : Expr) : Prop where
  moved : previous ≠ current
  small : (current.size : Int) ≤ settings.maxNodes

inductive Ends (settings : Settings) (pass : String) (last : Prop) (previous current : Expr) :
    Except Fault Expr → Prop where
  | stable (same : previous = current) : Ends settings pass last previous current (.ok current)
  | tooLarge (moved : previous ≠ current) (large : settings.maxNodes < current.size) :
      Ends settings pass last previous current
        (.error (.givenUp pass (.treeTooLarge current.size settings.maxNodes)))
  | unstable (goes : Goes settings previous current) (spent : last) :
      Ends settings pass last previous current
        (.error (.givenUp pass (.unstable (max 1 settings.maxIterations).toNat)))

section Attempts

variable {settings : Settings} {pass : String} {step : Expr → Except Fault Expr} {e r : Expr}
  {f : Expr → Noted Expr} {fault : Fault}

theorem attemptingOk (stepped : step e = .ok r) (seen : List Expr) :
    (attempting step e >>= f : Noted Expr) seen = f r (seen ++ [e]) := by
  show (ExceptT.bindCont f (step e) : StateM (List Expr) _) (seen ++ [e]) = _
  rw [stepped]
  rfl

theorem attemptingFails (failed : step e = .error fault) (seen : List Expr) :
    (attempting step e >>= f : Noted Expr) seen = (.error fault, seen ++ [e]) := by
  show (ExceptT.bindCont f (step e) : StateM (List Expr) _) (seen ++ [e]) = _
  rw [failed]
  rfl

theorem settleStops (stops : ¬Goes settings e r) (last : Prop) (more : Nat) (seen : List Expr) :
    ∃ result, Ends settings pass last e r result ∧
      (settle settings pass f more e r : Noted Expr) seen = (result, seen) := by
  unfold settle checkSize
  by_cases same : e = r
  · rw [if_pos same]
    exact ⟨_, .stable same, rfl⟩
  · have large : settings.maxNodes < r.size := Int.not_le.1 fun small => stops ⟨same, small⟩
    rw [if_neg same, if_pos large]
    exact ⟨_, .tooLarge same large, rfl⟩

theorem settleGoes (goes : Goes settings e r) (more : Nat) :
    (settle settings pass f (more + 1) e r : Noted Expr) = f r >>= settle settings pass f more r := by
  conv_lhs => unfold settle checkSize
  rw [if_neg goes.moved, if_neg (Int.not_lt.2 goes.small)]

theorem settleSpent (goes : Goes settings e r) (seen : List Expr) :
    (settle settings pass f 0 e r : Noted Expr) seen =
      (.error (.givenUp pass (.unstable (max 1 settings.maxIterations).toNat)), seen) := by
  unfold settle checkSize
  rw [if_neg goes.moved, if_neg (Int.not_lt.2 goes.small)]
  rfl

theorem settleAttempting (more : Nat) (previous current : Expr) (seen : List Expr) :
    ((settle settings pass (attempting step) more previous current : Noted Expr) seen).1 =
      settle settings pass step more previous current := by
  induction more generalizing previous current seen with
  | zero =>
    unfold settle
    split
    · rfl
    · cases checkSize settings pass current <;> rfl
  | succ more ih =>
    unfold settle
    split
    · rfl
    · cases checkSize settings pass current with
      | error fault => rfl
      | ok _ =>
        dsimp only
        cases next : step current with
        | error fault =>
          rw [attemptingFails next]
          rfl
        | ok r =>
          rw [attemptingOk next]
          exact ih current r (seen ++ [current])

end Attempts

section Loop

variable {settings : Settings} {pass : String} {step : Expr → Expr} {e : Expr} {n k : Nat}

theorem settleEnds (more : Nat) (e : Expr) (seen : List Expr) : ∃ k r, k ≤ more ∧
    (∀ i, i < k → Goes settings (step^[i] e) (step^[i + 1] e)) ∧
    Ends settings pass (k = more) (step^[k] e) (step^[k + 1] e) r ∧
    (settle settings pass (noting step) more e (step e) : Noted Expr) seen =
      (r, seen ++ List.iterate step (step e) k) := by
  induction more generalizing e seen with
  | zero =>
    by_cases goes : Goes settings e (step e)
    · refine ⟨0, _, Nat.le_refl 0, nofun, .unstable goes rfl, ?_⟩
      rw [settleSpent goes, List.iterate, List.append_nil]
    · obtain ⟨r, ends, run⟩ := settleStops goes (0 = 0) 0 seen
      refine ⟨0, r, Nat.le_refl 0, nofun, ends, ?_⟩
      rw [run, List.iterate, List.append_nil]
  | succ more ih =>
    by_cases goes : Goes settings e (step e)
    · obtain ⟨k, r, few, before, ends, run⟩ := ih (step e) (seen ++ [step e])
      refine ⟨k + 1, r, Nat.succ_le_succ few, fun i below => ?_, ?_, ?_⟩
      · match i with
        | 0 => exact goes
        | i + 1 => exact before i (Nat.lt_of_succ_lt_succ below)
      · simp only [Nat.succ_inj]
        exact ends
      · rw [settleGoes goes]
        refine run.trans ?_
        rw [List.append_assoc]
        rfl
    · obtain ⟨r, ends, run⟩ := settleStops goes (0 = more + 1) (more + 1) seen
      refine ⟨0, r, Nat.zero_le _, nofun, ends, ?_⟩
      rw [run, List.iterate, List.append_nil]

theorem watchedEnds (settings : Settings) (pass : String) (step : Expr → Expr) (e : Expr) :
    ∃ k r, k ≤ (settings.maxIterations - 1).toNat ∧
      (∀ i, i < k → Goes settings (step^[i] e) (step^[i + 1] e)) ∧
      Ends settings pass (k = (settings.maxIterations - 1).toNat) (step^[k] e) (step^[k + 1] e) r ∧
      watched settings pass step e = (r, List.iterate step e (k + 1)) :=
  settleEnds (settings.maxIterations - 1).toNat e [e]

theorem watchedResult (settings : Settings) (pass : String) (step : Expr → Expr) (e : Expr) :
    (watched settings pass step e).1 = toFixedPoint settings pass (fun t => pure (step t)) e :=
  settleAttempting (settings.maxIterations - 1).toNat e (step e) [e]

theorem SettlesAt.stays (settles : SettlesAt step e n) : step (step^[n] e) = step^[n] e := by
  obtain ⟨⟨positive, same⟩, _⟩ := settles
  calc
    step (step^[n] e) = step (step^[n - 1] e) := congrArg step same
    _ = step^[n - 1 + 1] e := (Function.iterate_succ_apply' step (n - 1) e).symm
    _ = step^[n] e := by rw [Nat.sub_add_cancel positive]

theorem SettlesAt.after (settles : SettlesAt step e n)
    (moved : ∀ i, i < k → step^[i] e ≠ step^[i + 1] e) : k < n := by
  obtain ⟨⟨positive, same⟩, _⟩ := settles
  by_contra early
  refine moved (n - 1) (by omega) ?_
  rw [Nat.sub_add_cancel positive, same]

theorem settlesHere (moved : ∀ i, i < k → step^[i] e ≠ step^[i + 1] e)
    (same : step^[k] e = step^[k + 1] e) : SettlesAt step e (k + 1) := by
  refine ⟨⟨Nat.succ_pos k, same.symm⟩, fun m ⟨positive, settled⟩ => ?_⟩
  by_contra early
  refine moved (m - 1) (by omega) ?_
  rw [Nat.sub_add_cancel positive, settled]

theorem movedUpTo (goes : ∀ i, i < k → Goes settings (step^[i] e) (step^[i + 1] e))
    (moved : step^[k] e ≠ step^[k + 1] e) (i : Nat) (early : i < k + 1) :
    step^[i] e ≠ step^[i + 1] e := by
  rcases Nat.lt_succ_iff_lt_or_eq.1 early with below | rfl
  · exact (goes i below).moved
  · exact moved

theorem watchedSettles (settles : SettlesAt step e n) (allowed : Allowed settings step e n) :
    watched settings pass step e = (.ok (step^[n] e), List.iterate step e n) := by
  obtain ⟨k, r, few, goes, ends, run⟩ := watchedEnds settings pass step e
  cases ends with
  | stable same =>
    obtain rfl : n = k + 1 :=
      IsLeast.unique settles (settlesHere (fun i below => (goes i below).moved) same)
    exact run
  | tooLarge moved large =>
    have later := settles.after (movedUpTo goes moved)
    exact absurd (allowed.nodes (k + 1) (Nat.succ_pos k) later) (Int.not_le.2 large)
  | unstable more spent =>
    have later := settles.after (movedUpTo goes more.moved)
    have rounds := allowed.rounds
    omega

theorem settlesBy (still : step (step^[n] e) = step^[n] e) :
    ∃ m, m ≤ n + 1 ∧ SettlesAt step e m ∧ step^[m] e = step^[n] e := by
  have settled : 1 ≤ n + 1 ∧ step^[n + 1] e = step^[n + 1 - 1] e :=
    ⟨Nat.succ_pos n, (Function.iterate_succ_apply' step n e).trans still⟩
  obtain ⟨m, settles⟩ : ∃ m, SettlesAt step e m :=
    ⟨_, Nat.isLeast_find (p := fun k => 1 ≤ k ∧ step^[k] e = step^[k - 1] e) ⟨n + 1, settled⟩⟩
  have early := settles.2 settled
  refine ⟨m, early, settles, ?_⟩
  obtain ⟨more, whole⟩ := Nat.exists_eq_add_of_le early
  calc
    step^[m] e = step^[more] (step^[m] e) := (Function.iterate_fixed settles.stays more).symm
    _ = step^[n + 1] e := by rw [← Function.iterate_add_apply, whole, Nat.add_comm]
    _ = step^[n] e := settled.2

theorem fixedPointWithin (still : step (step^[n] e) = step^[n] e)
    (rounds : (n : Int) + 1 ≤ max 1 settings.maxIterations)
    (small : ∀ k, 1 ≤ k → k ≤ n → ((step^[k] e).size : Int) ≤ settings.maxNodes) :
    toFixedPoint settings pass (fun t => (pure (step t) : Except Fault Expr)) e = .ok (step^[n] e) := by
  obtain ⟨m, early, settles, same⟩ := settlesBy still
  have allowed : Allowed settings step e m :=
    ⟨by omega, fun k positive below => small k positive (by omega)⟩
  rw [← watchedResult, watchedSettles settles allowed, same]

theorem settleAlong {given : Expr → Except Fault Expr} {P : Expr → Prop}
    (agrees : ∀ t, P t → given t = .ok (step t)) (keeps : ∀ t, P t → P (step t)) (more : Nat)
    (previous current : Expr) (holds : P current) :
    settle settings pass given more previous current =
      settle settings pass (fun t => pure (step t)) more previous current := by
  induction more generalizing previous current with
  | zero =>
    unfold settle
    split
    · rfl
    · cases checkSize settings pass current <;> rfl
  | succ more ih =>
    unfold settle
    split
    · rfl
    · cases checkSize settings pass current with
      | error fault => rfl
      | ok _ =>
        show (given current >>= _) = _
        rw [agrees current holds]
        exact ih current (step current) (keeps current holds)

theorem fixedPointAlong {given : Expr → Except Fault Expr} {P : Expr → Prop}
    (agrees : ∀ t, P t → given t = .ok (step t)) (keeps : ∀ t, P t → P (step t)) (holds : P e) :
    toFixedPoint settings pass given e = toFixedPoint settings pass (fun t => pure (step t)) e := by
  rw [toFixedPoint, toFixedPoint, agrees e holds]
  exact settleAlong agrees keeps _ e (step e) (keeps e holds)

end Loop

/- The limit is so far below zero that the notice of the divergence cannot show it. -/
example : checkSize { maxNodes := -Numeral.ceiling } "Flatten" (.var "x") = .error .unwritten := by
  decide +kernel

end ArithEquiv.Normalize
