import ArithEquiv.Proofs.Blending
import ArithEquiv.Proofs.Failures
import ArithEquiv.Proofs.Iteration
import ArithEquiv.Proofs.Offsets

/-! Passes that are done after one sweep. Working up a tree once leaves no node that the same rule
would change: what takes the place of a node is one of its parts, a number, a negation or a node the
rule has nothing to do at. A loop over such a sweep applies it at most twice, and then it fails only
with the sweep itself or for the size of what the sweep gives. -/
namespace ArithEquiv.Normalize

open ArithEquiv.Expr

section Sweeping

variable {f : Expr → Except Fault Expr} {P : Expr → Prop} {e r : Expr}

theorem sweepLands (lands : ∀ e r, (∀ c ∈ e.children, P c) → f e = .ok r → P r)
    (run : e.bottomUpM f = .ok r) : P r := by
  refine bottomUpInduction (P := fun _ r => P r) ?_ ?_ ?_ ?_ ?_ run
  · exact fun n r last => lands (.const n) r nofun last
  · exact fun name r last => lands (.var name) r nofun last
  · intro arg a r worked last
    exact lands (.neg a) r (List.forall_mem_singleton.2 worked) last
  · intro op left right l r' r onLeft onRight last
    exact lands (.bin op l r') r
      (List.forall_mem_cons.2 ⟨onLeft, List.forall_mem_singleton.2 onRight⟩) last
  · intro op first second rest a b more r worked last
    refine lands (.flat op a b more) r (fun c mem => ?_) last
    obtain ⟨_, _, holds⟩ := forallTwoRight worked mem
    exact holds

theorem sweepRests (rests : ∀ e, P e → f e = .ok e ∧ ∀ c ∈ e.children, P c) (holds : P e) :
    e.bottomUpM f = .ok e := by
  induction e using Expr.byArgs with
  | const n => rw [bottomUpMConst]; exact (rests _ holds).1
  | var name => rw [bottomUpMVar]; exact (rests _ holds).1
  | neg arg ih =>
    obtain ⟨own, each⟩ := rests _ holds
    rw [bottomUpMNeg, ih (each arg List.mem_cons_self)]
    exact own
  | bin op left right ihl ihr =>
    obtain ⟨own, each⟩ := rests _ holds
    rw [bottomUpMBin, ihl (each left List.mem_cons_self),
      ihr (each right (List.mem_cons_of_mem _ List.mem_cons_self))]
    exact own
  | flat op first second rest ih =>
    obtain ⟨own, each⟩ := rests _ holds
    have swept := fun e mem => ih e mem (each e mem)
    obtain ⟨one, more⟩ := List.forall_mem_cons.1 swept
    obtain ⟨two, others⟩ := List.forall_mem_cons.1 more
    have worked : rest.mapM (bottomUpM f) = .ok rest := mapMOk.2 (List.forall₂_same.2 others)
    rw [bottomUpMFlat, one, two, worked]
    exact own

inductive Resting (f : Expr → Except Fault Expr) : Expr → Prop where
  | node {e : Expr} (own : f e = .ok e) (each : ∀ c ∈ e.children, Resting f c) : Resting f e

theorem restingSweep (lands : ∀ e r, (∀ c ∈ e.children, Resting f c) → f e = .ok r → Resting f r)
    (run : e.bottomUpM f = .ok r) : r.bottomUpM f = .ok r :=
  sweepRests (fun _ ⟨own, each⟩ => ⟨own, each⟩) (sweepLands lands run)

end Sweeping

section Units

variable {op : BinOp} {left right e r : Expr}

theorem dropUnitsCases (op : BinOp) (left right : Expr) :
    dropUnits op left right = .const 0 ∨ dropUnits op left right = left ∨
      dropUnits op left right = right ∨ dropUnits op left right = .neg right ∨
      dropUnits op left right = .bin op left right := by
  unfold dropUnits
  cases op with
  | div => simp
  | _ => dsimp only; split_ifs <;> simp

theorem unitsSweptTwice (run : e.bottomUpM dropUnitsNode = .ok r) :
    r.bottomUpM dropUnitsNode = .ok r := by
  refine restingSweep (fun e r each last => ?_) run
  cases e with
  | const n => cases last; exact .node rfl nofun
  | var name => cases last; exact .node rfl nofun
  | neg arg => cases last; exact .node rfl each
  | bin op left right =>
    have onLeft := each left List.mem_cons_self
    have onRight := each right (List.mem_cons_of_mem _ List.mem_cons_self)
    obtain rfl := Except.ok.inj last
    rcases dropUnitsCases op left right with zero | same | same | negated | same
    · rw [zero]; exact .node rfl nofun
    · rwa [same]
    · rwa [same]
    · rw [negated]; exact .node rfl (List.forall_mem_singleton.2 onRight)
    · have own : dropUnitsNode (.bin op left right) = .ok (.bin op left right) := congrArg _ same
      rw [same]
      exact .node own each
  | flat op first second rest => cases last

end Units

section Constants

variable {op : AssocOp} {e r first second : Expr} {es rest : List Expr}

inductive Gathered : Expr → Prop where
  | const (n : Int) : Gathered (.const n)
  | var (name : String) : Gathered (.var name)
  | neg {arg : Expr} (inner : Gathered arg) : Gathered (.neg arg)
  | bin {op : BinOp} {left right : Expr} (onLeft : Gathered left) (onRight : Gathered right) :
      Gathered (.bin op left right)
  | flat {op : AssocOp} {first second : Expr} {rest : List Expr}
      (each : ∀ e ∈ first :: second :: rest, Gathered e)
      (apart : ∀ e ∈ first :: second :: rest, spliced op e = [e])
      (behind : ∀ e ∈ second :: rest, e.const? = none)
      (front : ∀ n, first = .const n → ¬(op = .mul ∧ n = 0) ∧ n ≠ op.identity)
      (fits : ∀ n, first = .const n → Numeral.fits n = true) : Gathered (.flat op first second rest)

theorem drawnInApart (apart : ∀ e ∈ es, spliced op e = [e]) : drawnIn op es = es := by
  rw [drawnIn, List.flatMap_congr apart, List.flatMap_singleton']

theorem gatheredDrawnIn (each : ∀ e ∈ es, Gathered e) :
    ∀ t ∈ drawnIn op es, Gathered t ∧ spliced op t = [t] := by
  intro t mem
  obtain ⟨e, inside, found⟩ := List.mem_flatMap.1 mem
  have whole := each e inside
  by_cases alone : spliced op e = [e]
  · rw [alone, List.mem_singleton] at found
    rw [found]
    exact ⟨whole, alone⟩
  · cases whole with
    | @flat inner first second rest each apart behind front fits =>
      by_cases same : inner = op
      · subst same
        have parts : spliced inner (.flat inner first second rest) = first :: second :: rest :=
          if_pos rfl
        rw [parts] at found
        exact ⟨each t found, apart t found⟩
      · exact absurd (if_neg same) alone
    | _ => exact absurd rfl alone

theorem combinedFits (run : foldConstantsNode (.flat op first second rest) = .ok r)
    (some : ¬(op = .mul ∧ op.total (numbers (drawnIn op (first :: second :: rest))) = 0))
    (differs : op.total (numbers (drawnIn op (first :: second :: rest))) ≠ op.identity) :
    Numeral.fits (op.total (numbers (drawnIn op (first :: second :: rest)))) = true := by
  simp only [foldConstantsNode] at run
  split at run
  · rename_i zero
    exact absurd zero some
  · split at run
    · rename_i same
      exact absurd same differs
    · obtain ⟨constant, made, _⟩ := bindOk.1 run
      unfold Expr.ofConst at made
      split at made
      · rename_i fits
        exact fits
      · cases made

theorem gatheredBlend (each : ∀ e ∈ first :: second :: rest, Gathered e)
    (run : foldConstantsNode (.flat op first second rest) = .ok r) : Gathered r := by
  have known : ∀ t ∈ others (drawnIn op (first :: second :: rest)),
      Gathered t ∧ spliced op t = [t] ∧ t.const? = none := by
    intro t mem
    obtain ⟨inside, other⟩ := List.mem_filter.1 mem
    obtain ⟨holds, alone⟩ := gatheredDrawnIn each t inside
    exact ⟨holds, alone, Option.isNone_iff_eq_none.1 other⟩
  rw [(foldConstantsNodeOk run).blends]
  refine frontedHolds .const (fun e mem => (known e mem).1) ?_ ?_
  · intro a b more kept
    rw [← kept] at known
    have other := (known a List.mem_cons_self).2.2
    refine .flat (fun e mem => (known e mem).1) (fun e mem => (known e mem).2.1)
      (fun e mem => (known e (List.mem_cons_of_mem _ mem)).2.2) ?_ ?_
    · rintro n rfl
      cases other
    · rintro n rfl
      cases other
  · intro some differs a more kept
    rw [← kept] at known
    refine .flat (List.forall_mem_cons.2 ⟨.const _, fun e mem => (known e mem).1⟩)
      (List.forall_mem_cons.2 ⟨rfl, fun e mem => (known e mem).2.1⟩)
      (fun e mem => (known e mem).2.2) ?_ ?_
    · intro n constant
      cases constant
      exact ⟨some, differs⟩
    · intro n constant
      cases constant
      exact combinedFits run some differs

theorem gatheredRests (gathered : Gathered e) :
    foldConstantsNode e = .ok e ∧ ∀ c ∈ e.children, Gathered c := by
  cases gathered with
  | const n => exact ⟨rfl, nofun⟩
  | var name => exact ⟨rfl, nofun⟩
  | neg inner => exact ⟨rfl, List.forall_mem_singleton.2 inner⟩
  | bin onLeft onRight =>
    exact ⟨rfl, List.forall_mem_cons.2 ⟨onLeft, List.forall_mem_singleton.2 onRight⟩⟩
  | @flat op first second rest each apart behind front fits =>
    refine ⟨?_, each⟩
    have drawn := drawnInApart apart
    cases run : foldConstantsNode (.flat op first second rest) with
    | ok r => rw [(foldConstantsNodeOk run).blends, blendSelf drawn behind front]
    | error fault =>
      -- the one constant there may be is in front, and has room for its digits
      obtain ⟨-, n, total, long⟩ := foldConstantsNodeFault run
      have same : (tally op (drawnIn op (first :: second :: rest))).1 = n := Option.some.inj total
      rw [drawn] at same
      rcases constOrOther first with ⟨m, rfl⟩ | other
      · rw [tallyLed m behind] at same
        rw [← same, fits m rfl] at long
        cases long
      · rw [tallyOthers op (List.forall_mem_cons.2 ⟨other, behind⟩)] at same
        rw [← same] at long
        cases op <;> cases long

theorem constantsSweptTwice (run : e.bottomUpM foldConstantsNode = .ok r) :
    r.bottomUpM foldConstantsNode = .ok r := by
  refine sweepRests (P := Gathered) (fun _ => gatheredRests) (sweepLands (fun e r each last => ?_) run)
  cases e with
  | const n => cases last; exact .const n
  | var name => cases last; exact .var name
  | neg arg => cases last; exact .neg (each arg List.mem_cons_self)
  | bin op left right =>
    cases last
    exact .bin (each left List.mem_cons_self) (each right (List.mem_cons_of_mem _ List.mem_cons_self))
  | flat op first second rest => exact gatheredBlend each last

end Constants

section Opposites

theorem cancelledTwice (es : List Expr) : cancelled (cancelled es) = cancelled es := by
  refine nothingCancels fun t minus plus => ?_
  rcases (cancelledOffset es).settled t with none | none
  · exact List.count_eq_zero.1 none plus
  · exact List.count_eq_zero.1 none minus

theorem cancelSweptTwice (e : Expr) :
    (e.bottomUp cancelNode).bottomUp cancelNode = e.bottomUp cancelNode := by
  have twice : (e.bottomUp cancelNode).bottomUpM (fun t => (.ok (cancelNode t) : Except Fault Expr)) =
      .ok (e.bottomUp cancelNode) := by
    refine restingSweep (fun e r each last => ?_) (bottomUpMPure cancelNode e)
    obtain rfl := Except.ok.inj last
    cases e with
    | flat op first second rest =>
      cases op with
      | mul => exact .node rfl each
      | add =>
        have part := (cancelledOffset (first :: second :: rest)).part
        have again := cancelledTwice (first :: second :: rest)
        show Resting _ (Expr.join .add (cancelled (first :: second :: rest)))
        -- what is left are operands, so only a sum of several of them is a new node
        match left : cancelled (first :: second :: rest) with
        | [] => exact .node rfl nofun
        | [e] => exact each e (part.subset (by rw [left]; exact List.mem_cons_self))
        | a :: b :: more =>
          rw [left] at again
          have own : cancelNode (.flat .add a b more) = .flat .add a b more :=
            congrArg (Expr.join .add) again
          exact .node (congrArg Except.ok own) fun c mem => each c (part.subset (by rwa [left]))
    | _ => exact .node rfl each
  rw [bottomUpMPure] at twice
  exact Except.ok.inj twice

end Opposites

def attempted (settings : Settings) (pass : String) (step : Expr → Except Fault Expr) (e : Expr) :
    Except Fault Expr × List Expr :=
  (toFixedPoint settings pass (attempting step) e : Noted Expr) []

structure SettlesAtOnce (settings : Settings) (pass : String) (step : Expr → Except Fault Expr)
    (e : Expr) (result : Except Fault Expr) : Prop where
  again : ∀ r, step e = .ok r → step r = .ok r
  once : ∀ r, result = .ok r → step e = .ok r
  ends : (attempted settings pass step e).1 = result
  calls : (attempted settings pass step e).2.length ≤ 2
  settles : 2 ≤ settings.maxIterations → ∀ name n, result ≠ .error (.diverged name (.unstable n))

section Loops

variable {settings : Settings} {pass : String} {step : Expr → Except Fault Expr} {e r : Expr}

theorem attemptedResult (settings : Settings) (pass : String) (step : Expr → Except Fault Expr)
    (e : Expr) : (attempted settings pass step e).1 = toFixedPoint settings pass step e := by
  unfold attempted toFixedPoint
  cases first : step e with
  | error fault =>
    rw [attemptingFails first]
    rfl
  | ok r =>
    rw [attemptingOk first]
    exact settleAttempting (settings.maxIterations - 1).toNat e r [e]

/- After a step that settles the tree there is one more to see that it does, unless nothing was to do
or the limits do not allow it. -/
theorem settleAtOnce (settings : Settings) (pass : String) (still : step r = .ok r) (more : Nat)
    (e : Expr) (seen : List Expr) :
    ∃ previous result seen', seen'.length ≤ seen.length + 1 ∧
      Ends settings pass (more = 0) previous r result ∧
      (settle settings pass (attempting step) more e r : Noted Expr) seen = (result, seen') := by
  by_cases goes : Goes settings e r
  · match more with
    | 0 => exact ⟨e, _, seen, Nat.le_succ _, .unstable goes rfl, settleSpent goes seen⟩
    | more + 1 =>
      refine ⟨r, .ok r, seen ++ [r], by simp, .stable rfl, ?_⟩
      rw [settleGoes goes, attemptingOk still]
      unfold settle
      rw [if_pos rfl]
      rfl
  · obtain ⟨result, ends, run⟩ := settleStops goes (more = 0) more seen
    exact ⟨e, result, seen, Nat.le_succ _, ends, run⟩

theorem settlesAtOnce (settings : Settings) (pass : String)
    (again : ∀ e r, step e = .ok r → step r = .ok r)
    (sound : ∀ e name n, step e ≠ .error (.diverged name (.unstable n))) (e : Expr) :
    SettlesAtOnce settings pass step e (toFixedPoint settings pass step e) := by
  have ends := attemptedResult settings pass step e
  cases first : step e with
  | error fault =>
    have whole : attempted settings pass step e = (.error fault, [e]) := attemptingFails first []
    rw [whole] at ends
    refine ⟨fun r => again e r, fun r ok => ?_, ?_, ?_, fun _ name n failed => ?_⟩
    · cases ends.trans ok
    · rw [whole]
      exact ends
    · rw [whole]
      exact Nat.le_succ 1
    · exact sound e name n (first.trans (ends.trans failed))
  | ok r =>
    obtain ⟨previous, result, seen, short, last, run⟩ :=
      settleAtOnce settings pass (again e r first) (settings.maxIterations - 1).toNat e [e]
    have whole : attempted settings pass step e = (result, seen) := (attemptingOk first []).trans run
    rw [whole] at ends
    refine ⟨fun r => again e r, fun t ok => ?_, ?_, ?_, fun two name n failed => ?_⟩
    · cases last with
      | stable same => exact first.trans (ends.trans ok)
      | _ => cases ends.trans ok
    · rw [whole]
      exact ends
    · rw [whole]
      exact short
    · cases last with
      | unstable goes spent => omega
      | tooLarge => cases Fault.givenUpDiverged (Except.error.inj (ends.trans failed))
      | stable => cases ends.trans failed

theorem fixedPointNothing (settings : Settings) (pass : String) (still : step e = .ok e) :
    toFixedPoint settings pass step e = .ok e := by
  unfold toFixedPoint
  rw [still]
  show settle settings pass step (settings.maxIterations - 1).toNat e e = .ok e
  unfold settle
  exact if_pos rfl

theorem settlesPure (settings : Settings) (pass : String) {g : Expr → Expr} (twice : ∀ e, g (g e) = g e)
    (e : Expr) : SettlesAtOnce settings pass (fun t => .ok (g t)) e
      (toFixedPoint settings pass (fun t => .ok (g t)) e) := by
  refine settlesAtOnce settings pass (fun e r stepped => ?_) (fun _ _ _ failed => by cases failed) e
  obtain rfl := Except.ok.inj stepped
  exact congrArg Except.ok (twice e)

theorem settlesUnits (settings : Settings) (e : Expr) : SettlesAtOnce settings "CleanZerosOnes"
    (fun t => t.bottomUpM dropUnitsNode) e (cleanUnits settings e) := by
  refine settlesAtOnce settings _ (fun _ _ => unitsSweptTwice) (fun e name n failed => ?_) e
  obtain ⟨t, _, failed⟩ := handedFault failed
  cases t <;> cases failed

theorem settlesConstants (settings : Settings) (e : Expr) : SettlesAtOnce settings "FoldConstants"
    (fun t => t.bottomUpM foldConstantsNode) e (foldConstants settings e) := by
  refine settlesAtOnce settings _ (fun _ _ => constantsSweptTwice) (fun e name n failed => ?_) e
  obtain ⟨t, _, failed⟩ := handedFault failed
  cases (foldConstantsNodeFault failed).1

theorem settlesOpposites (settings : Settings) {e flat : Expr} (run : flatten settings e = .ok flat) :
    SettlesAtOnce settings "ReduceAddNegates" (fun t => .ok (t.bottomUp cancelNode)) flat
      (cancelOpposites settings e) := by
  have onward : cancelOpposites settings e =
      toFixedPoint settings "ReduceAddNegates" (fun t => .ok (t.bottomUp cancelNode)) flat := by
    unfold cancelOpposites
    rw [run]
    rfl
  rw [onward]
  exact settlesPure settings _ cancelSweptTwice flat

end Loops

theorem oneSweepEnough (settings : Settings) (e : Expr) :
    SettlesAtOnce settings "Flatten" (fun t => .ok (flattenOnce t)) e (flatten settings e) ∧
    SettlesAtOnce settings "Unflatten" (fun t => .ok (unflattenOnce t)) e (unflatten settings e) ∧
    SettlesAtOnce settings "CanonicalAdds" (fun t => .ok (orderOnce settings.hash .add t)) e
      (orderSums settings e) ∧
    SettlesAtOnce settings "CanonicalMuls" (fun t => .ok (orderOnce settings.hash .mul t)) e
      (orderProducts settings e) ∧
    SettlesAtOnce settings "FoldConstants" (fun t => t.bottomUpM foldConstantsNode) e
      (foldConstants settings e) ∧
    SettlesAtOnce settings "CleanZerosOnes" (fun t => t.bottomUpM dropUnitsNode) e
      (cleanUnits settings e) ∧
    (Unflattened e → ∃ r, e.bottomUpM dropUnitsNode = .ok r) ∧
    (∀ flat, flatten settings e = .ok flat →
      SettlesAtOnce settings "ReduceAddNegates" (fun t => .ok (t.bottomUp cancelNode)) flat
        (cancelOpposites settings e)) ∧
    (Flattened e → SettlesAtOnce settings "ReduceAddNegates"
      (fun t => .ok (t.bottomUp cancelNode)) e (cancelOpposites settings e)) ∧
    (2 ≤ settings.maxIterations →
      ∀ name n, cancelOpposites settings e ≠ .error (.diverged name (.unstable n))) := by
  have flattens := settlesPure settings "Flatten" (fun e => flattenOnceFixed (flattenOnceFlattened e)) e
  refine ⟨flattens,
    settlesPure settings _ (fun e => unflattenOnceFixed (unflattenOnceUnflattened e)) e,
    settlesPure settings _ (orderOnceTwice settings.hash .add) e,
    settlesPure settings _ (orderOnceTwice settings.hash .mul) e,
    settlesConstants settings e, settlesUnits settings e, ?_, fun _ => settlesOpposites settings, ?_, ?_⟩
  · exact fun plain => ⟨_, (dropUnitsSweep plain).2⟩
  · intro flattened
    have still : (pure (flattenOnce e) : Except Fault Expr) = .ok e :=
      congrArg Except.ok (flattenOnceFixed flattened)
    exact settlesOpposites settings (fixedPointNothing settings "Flatten" still)
  · intro two name n failed
    rcases bindFault failed with failed | ⟨flat, run, _⟩
    · exact flattens.settles two name n failed
    · exact (settlesOpposites settings run).settles two name n failed

def twoSweeps : Settings := { maxIterations := 2, maxNodes := 3 }

def spareZeros : Expr := .bin .sub (.const 0) (.bin .sub (.var "x") (.const 0))

def opposed : Expr := .flat .add (.var "y") (.var "x") [.neg (.var "x")]

theorem oneSweepEnoughHere :
    cleanUnits twoSweeps spareZeros = .ok (.neg (.var "x")) ∧
    (∃ r, spareZeros.bottomUpM dropUnitsNode = .ok r) ∧
    cancelOpposites twoSweeps opposed = .ok (.var "y") ∧
    SettlesAtOnce twoSweeps "ReduceAddNegates" (fun t => .ok (t.bottomUp cancelNode)) opposed
      (cancelOpposites twoSweeps opposed) ∧
    ∀ name n, cancelOpposites twoSweeps opposed ≠ .error (.diverged name (.unstable n)) := by
  have plain : Unflattened spareZeros := .bin (.const 0) (.bin (.var "x") (.const 0))
  have flat : flatten twoSweeps opposed = .ok opposed := by decide +kernel
  obtain ⟨_, _, _, _, _, _, units, _⟩ := oneSweepEnough twoSweeps spareZeros
  obtain ⟨_, _, _, _, _, _, _, opposites, _, settles⟩ := oneSweepEnough twoSweeps opposed
  exact ⟨by decide +kernel, units plain, by decide +kernel, opposites opposed flat,
    settles (by decide)⟩

end ArithEquiv.Normalize
