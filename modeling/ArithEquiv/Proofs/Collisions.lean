import ArithEquiv.Proofs.Ordering

/-! The operands whose digests a run compares, listed by following the run: every sweep of every
ordering, in the restructurings of distribution, before signs are reduced and at the end. Results
of steps that fail have none. What is assumed of a hash is that it keeps those operands apart. -/
namespace ArithEquiv

namespace Expr

mutual

def operandsOf (op : AssocOp) : Expr → List Expr
  | .const _ => []
  | .var _ => []
  | .neg arg => operandsOf op arg
  | .bin inner left right =>
      (if inner = op.bin then [left, right] else []) ++ operandsOf op left ++ operandsOf op right
  | .flat inner first second rest =>
      (if inner = op then first :: second :: rest else []) ++
        operandsOf op first ++ operandsOf op second ++ operandsOfAll op rest

def operandsOfAll (op : AssocOp) : List Expr → List Expr
  | [] => []
  | e :: rest => operandsOf op e ++ operandsOfAll op rest

end

theorem operandsOfPart {op : AssocOp} {es : List Expr} {e t : Expr} (mem : e ∈ es)
    (inside : t ∈ operandsOf op e) : t ∈ operandsOfAll op es := by
  induction es with
  | nil => cases mem
  | cons first rest ih =>
    rw [operandsOfAll, List.mem_append]
    rcases List.mem_cons.1 mem with rfl | mem
    · exact .inl inside
    · exact .inr (ih mem)

theorem operandsOfFlat (op inner : AssocOp) (first second : Expr) (rest : List Expr) :
    operandsOf op (.flat inner first second rest) =
      (if inner = op then first :: second :: rest else []) ++
        operandsOfAll op (first :: second :: rest) := by
  rw [operandsOf, operandsOfAll, operandsOfAll]
  simp only [List.append_assoc]

end Expr

def NoCollisions (hash : NodeHash) (es : List Expr) : Prop :=
  ∀ a ∈ es, ∀ b ∈ es, a.digest hash = b.digest hash → a = b

instance (hash : NodeHash) (es : List Expr) : Decidable (NoCollisions hash es) := by
  unfold NoCollisions
  infer_instance

theorem NoCollisions.part {hash : NodeHash} {some all : List Expr} (apart : NoCollisions hash all)
    (within : ∀ e ∈ some, e ∈ all) : NoCollisions hash some :=
  fun a memA b memB => apart a (within a memA) b (within b memB)

theorem NoCollisions.ofDistinct {hash : NodeHash} {es : List Expr}
    (apart : NoCollisions hash es.eraseDups) : NoCollisions hash es :=
  apart.part fun _ mem => List.mem_eraseDups.2 mem

namespace Normalize

open ArithEquiv.Expr

def trail (step : Expr → Except Fault Expr) : (more : Nat) → Expr → List Expr
  | 0, e => [e]
  | more + 1, e =>
    match step e with
    | .ok next => if e = next then [e] else e :: trail step more next
    | .error _ => [e]

def trailOf (settings : Settings) (step : Expr → Except Fault Expr) (e : Expr) : List Expr :=
  trail step (settings.maxIterations - 1).toNat e

def fromResult (x : Except Fault Expr) (f : Expr → List Expr) : List Expr :=
  match x with
  | .ok e => f e
  | .error _ => []

def sortedBySweeps (settings : Settings) (op : AssocOp) (e : Expr) : List Expr :=
  (trailOf settings (fun e => .ok (orderOnce settings.hash op e)) e).flatMap fun t =>
    (orderOnce settings.hash op t).operandsOf op

def sortedInTurn (settings : Settings) (e : Expr) : List Expr :=
  (trailOf settings (fun e => orderSums settings e >>= orderProducts settings) e).flatMap fun t =>
    sortedBySweeps settings .add t ++
      fromResult (orderSums settings t) (sortedBySweeps settings .mul)

def sortedRestructuring (settings : Settings) (e : Expr) : List Expr :=
  fromResult (flatten settings e) fun flat =>
    fromResult (folded settings flat) (sortedInTurn settings)

def sortedDistributing (settings : Settings) (e : Expr) : List Expr :=
  (trailOf settings (distributedOnce settings) e).flatMap fun t =>
    fromResult (unflatten settings t) fun chains =>
      fromResult (chains.bottomUpM (distributeNode settings)) (sortedRestructuring settings)

def sortedCleaningSigns (settings : Settings) (e : Expr) : List Expr :=
  fromResult (flatten settings e) (sortedBySweeps settings .mul)

def sortedOperands (settings : Settings) (e : Expr) : List Expr :=
  fromResult (prepared settings e) fun start =>
    sortedDistributing settings start ++
      fromResult (distributed settings start) (sortedCleaningSigns settings) ++
      fromResult (signed settings start >>= cancelOpposites settings)
        (sortedRestructuring settings)

section Members

variable {settings : Settings} {pass : String} {step : Expr → Except Fault Expr}

theorem trailStart (settings : Settings) (step : Expr → Except Fault Expr) (e : Expr) :
    e ∈ trailOf settings step e := by
  unfold trailOf
  cases (settings.maxIterations - 1).toNat with
  | zero => exact List.mem_singleton.2 rfl
  | succ more =>
    rw [trail]
    split
    · split <;> exact List.mem_cons_self
    · exact List.mem_cons_self

theorem settleTrail {more : Nat} {previous current r : Expr}
    (run : settle settings pass step more previous current = .ok r)
    (came : step previous = .ok current) : r ∈ trail step more previous := by
  induction more generalizing previous current with
  | zero =>
    rcases settleOk run with ⟨rfl, rfl⟩ | ⟨_, _, _, impossible, _⟩
    · exact List.mem_singleton.2 rfl
    · cases impossible
  | succ more ih =>
    rw [trail, came]
    dsimp only
    rcases settleOk run with ⟨rfl, rfl⟩ | ⟨_, next, differ, ⟨⟩, stepped, run⟩
    · split <;> exact List.mem_cons_self
    · rw [if_neg differ]
      exact List.mem_cons_of_mem _ (ih run stepped)

theorem trailEnd {e r : Expr} (run : toFixedPoint settings pass step e = .ok r) :
    r ∈ trailOf settings step e := by
  obtain ⟨first, stepped, run⟩ := bindOk.1 run
  exact settleTrail run stepped

end Members

end Normalize

end ArithEquiv
