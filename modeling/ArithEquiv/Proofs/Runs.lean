import ArithEquiv.Normalize.Pipeline
import ArithEquiv.Proofs.DigestEvaluation
import ArithEquiv.Proofs.Interpretation
import Mathlib.Logic.Relation

/-! Runs that return. A fixed point is reached by the step and left unchanged by it; a tree worked
up from its leaves has been so at every node; the result of a pass does not depend on the journal.
Relations that respect an interpretation pass from the nodes to the trees, and to fixed points. -/
namespace ArithEquiv

theorem bindOk {α β : Type} {x : Except Fault α} {f : α → Except Fault β} {b : β} :
    (x >>= f) = .ok b ↔ ∃ a, x = .ok a ∧ f a = .ok b := by
  cases x with
  | error fault =>
    constructor
    · intro run
      cases run
    · rintro ⟨_, run, _⟩
      cases run
  | ok a =>
    constructor
    · intro run
      exact ⟨a, rfl, run⟩
    · rintro ⟨_, ⟨⟩, run⟩
      exact run

theorem mapMOk {α β : Type} {f : α → Except Fault β} {xs : List α} {ys : List β} :
    xs.mapM f = .ok ys ↔ List.Forall₂ (fun x y => f x = .ok y) xs ys := by
  induction xs generalizing ys with
  | nil =>
    rw [List.mapM_nil, List.forall₂_nil_left_iff]
    exact ⟨fun h => by cases h; rfl, fun h => by rw [h]; rfl⟩
  | cons x xs ih =>
    rw [List.mapM_cons, List.forall₂_cons_left_iff, bindOk]
    constructor
    · rintro ⟨y, first, run⟩
      obtain ⟨ys', rest, last⟩ := bindOk.1 run
      cases last
      exact ⟨y, ys', first, ih.1 rest, rfl⟩
    · rintro ⟨y, ys', first, rest, rfl⟩
      exact ⟨y, first, bindOk.2 ⟨ys', ih.2 rest, rfl⟩⟩

theorem forallTwoOfMem {α : Type u} {β : Type v} {R P : α → β → Prop} {xs : List α} {ys : List β}
    (pairs : List.Forall₂ R xs ys) (each : ∀ x ∈ xs, ∀ y, R x y → P x y) :
    List.Forall₂ P xs ys := by
  induction pairs with
  | nil => exact .nil
  | cons one _ ih =>
    exact .cons (each _ (by simp) _ one) (ih fun x mem => each x (by simp [mem]))

theorem forallTwoRight {α : Type u} {β : Type v} {R : α → β → Prop} {xs : List α} {ys : List β}
    (pairs : List.Forall₂ R xs ys) {y : β} (mem : y ∈ ys) : ∃ x ∈ xs, R x y := by
  induction pairs with
  | nil => cases mem
  | @cons x y' xs ys head _ ih =>
    rcases List.mem_cons.1 mem with rfl | mem
    · exact ⟨x, by simp, head⟩
    · obtain ⟨x', member, related⟩ := ih mem
      exact ⟨x', by simp [member], related⟩

theorem forallTwoLeft {α : Type u} {β : Type v} {R : α → β → Prop} {xs : List α} {ys : List β}
    (pairs : List.Forall₂ R xs ys) {x : α} (mem : x ∈ xs) : ∃ y ∈ ys, R x y :=
  forallTwoRight pairs.flip mem

namespace Expr

section BottomUp

variable {f : Expr → Except Fault Expr}

theorem bottomUpInduction {P : Expr → Expr → Prop}
    (const : ∀ n r, f (.const n) = .ok r → P (.const n) r)
    (var : ∀ name r, f (.var name) = .ok r → P (.var name) r)
    (neg : ∀ arg a r, P arg a → f (.neg a) = .ok r → P (.neg arg) r)
    (bin : ∀ op left right l r' r, P left l → P right r' → f (.bin op l r') = .ok r →
      P (.bin op left right) r)
    (flat : ∀ op first second rest a b more r,
      List.Forall₂ P (first :: second :: rest) (a :: b :: more) →
      f (.flat op a b more) = .ok r → P (.flat op first second rest) r)
    {e r : Expr} (run : e.bottomUpM f = .ok r) : P e r := by
  induction e generalizing r with
  | const n => exact const n r (by rwa [bottomUpMConst] at run)
  | var name => exact var name r (by rwa [bottomUpMVar] at run)
  | neg arg ih =>
    rw [bottomUpMNeg] at run
    obtain ⟨a, worked, last⟩ := bindOk.1 run
    exact neg arg a r (ih worked) last
  | bin op left right ihl ihr =>
    rw [bottomUpMBin] at run
    obtain ⟨l, workedLeft, run⟩ := bindOk.1 run
    obtain ⟨r', workedRight, last⟩ := bindOk.1 run
    exact bin op left right l r' r (ihl workedLeft) (ihr workedRight) last
  | flat op first second rest ihf ihs ihr =>
    rw [bottomUpMFlat] at run
    obtain ⟨a, workedFirst, run⟩ := bindOk.1 run
    obtain ⟨b, workedSecond, run⟩ := bindOk.1 run
    obtain ⟨more, workedRest, last⟩ := bindOk.1 run
    refine flat op first second rest a b more r ?_ last
    exact .cons (ihf workedFirst) (.cons (ihs workedSecond)
      (forallTwoOfMem (mapMOk.1 workedRest) fun e mem _ worked => ihr e mem worked))

theorem bottomUpMPure (g : Expr → Expr) (e : Expr) :
    e.bottomUpM (fun e => Except.ok (ε := Fault) (g e)) = .ok (e.bottomUp g) := by
  induction e with
  | const n => rw [bottomUpMConst, bottomUpConst]
  | var name => rw [bottomUpMVar, bottomUpVar]
  | neg arg ih => rw [bottomUpMNeg, bottomUpNeg, ih]; rfl
  | bin op left right ihl ihr => rw [bottomUpMBin, bottomUpBin, ihl, ihr]; rfl
  | flat op first second rest ihf ihs ihr =>
    have worked : rest.mapM (bottomUpM fun e => Except.ok (ε := Fault) (g e)) =
        .ok (rest.map (bottomUp g)) := by
      refine mapMOk.2 (List.forall₂_map_right_iff.2 ?_)
      exact List.forall₂_same.2 ihr
    rw [bottomUpMFlat, bottomUpFlat, ihf, ihs, worked]
    rfl

end BottomUp

end Expr

namespace Interpretation

open ArithEquiv.Expr

variable {A : Type u}

structure Compatible (i : Interpretation A) (rel : A → A → Prop) : Prop where
  refl : ∀ a, rel a a
  trans : ∀ {a b c}, rel a b → rel b c → rel a c
  neg : ∀ {a b}, rel a b → rel (i.neg a) (i.neg b)
  bin : ∀ (op : BinOp) {a b c d}, rel a b → rel c d → rel (i.bin op a c) (i.bin op b d)

theorem compatibleEq (i : Interpretation A) : i.Compatible Eq where
  refl _ := rfl
  trans := Eq.trans
  neg h := congrArg i.neg h
  bin op _ _ _ _ h g := congrArg₂ (i.bin op) h g

theorem compatibleTrue (i : Interpretation A) : i.Compatible fun _ _ => True where
  refl _ := trivial
  trans _ _ := trivial
  neg _ := trivial
  bin _ _ _ _ _ _ _ := trivial

variable {i : Interpretation A} {rel : A → A → Prop}

theorem Compatible.chain (related : i.Compatible rel) (op : AssocOp) {xs ys : List A}
    (each : List.Forall₂ rel xs ys) {a b : A} (first : rel a b) :
    rel (i.chain op a xs) (i.chain op b ys) := by
  induction each generalizing a b with
  | nil => exact first
  | cons head _ ih => exact ih (related.bin op.bin first head)

theorem Compatible.flat (related : i.Compatible rel) {op : AssocOp} {first second a b : Expr}
    {rest more : List Expr}
    (each : List.Forall₂ (fun e r => rel (e.value i) (r.value i)) (first :: second :: rest)
      (a :: b :: more)) :
    rel ((Expr.flat op first second rest).value i) ((Expr.flat op a b more).value i) := by
  obtain ⟨head, tail⟩ := List.forall₂_cons.1 each
  rw [valueFlat, valueFlat]
  refine related.chain op ?_ head
  rw [List.forall₂_map_left_iff, List.forall₂_map_right_iff]
  exact tail

theorem Compatible.bottomUpM (related : i.Compatible rel) {f : Expr → Except Fault Expr}
    (node : ∀ {e r}, f e = .ok r → rel (e.value i) (r.value i))
    {e r : Expr} (run : e.bottomUpM f = .ok r) : rel (e.value i) (r.value i) := by
  refine bottomUpInduction (P := fun e r => rel (e.value i) (r.value i)) ?_ ?_ ?_ ?_ ?_ run
  · intro n r last
    exact node last
  · intro name r last
    exact node last
  · intro arg a r worked last
    exact related.trans (related.neg worked) (node last)
  · intro op left right l r' r workedLeft workedRight last
    exact related.trans (related.bin op workedLeft workedRight) (node last)
  · intro op first second rest a b more r worked last
    exact related.trans (related.flat worked) (node last)

theorem Compatible.bottomUp (related : i.Compatible rel) {g : Expr → Expr}
    (node : ∀ e, rel (e.value i) ((g e).value i)) (e : Expr) :
    rel (e.value i) ((e.bottomUp g).value i) := by
  refine related.bottomUpM (f := fun e => .ok (g e)) ?_ (bottomUpMPure g e)
  intro e r last
  cases last
  exact node e

end Interpretation

namespace Normalize

open Relation

def Leads (step : Expr → Except Fault Expr) (a b : Expr) : Prop := step a = .ok b

section Loop

variable {settings : Settings} {pass : String} {step : Expr → Except Fault Expr}

theorem settleOk {more : Nat} {previous current r : Expr}
    (run : settle settings pass step more previous current = .ok r) :
    (previous = current ∧ r = current) ∨
      ∃ less next, previous ≠ current ∧ more = less + 1 ∧ step current = .ok next ∧
        settle settings pass step less current next = .ok r := by
  unfold settle at run
  split at run
  · rename_i same
    cases run
    exact .inl ⟨same, rfl⟩
  · rename_i differ
    cases size : checkSize settings pass current with
    | error fault => simp only [size] at run; cases run
    | ok _ =>
      cases more with
      | zero => simp only [size] at run; cases run
      | succ less =>
        simp only [size] at run
        obtain ⟨next, stepped, run⟩ := bindOk.1 run
        exact .inr ⟨less, next, differ, rfl, stepped, run⟩

theorem settleReaches {more : Nat} {previous current r : Expr}
    (run : settle settings pass step more previous current = .ok r)
    (came : step previous = .ok current) :
    ReflTransGen (Leads step) previous r ∧ step r = .ok r := by
  induction more generalizing previous current with
  | zero =>
    rcases settleOk run with ⟨rfl, rfl⟩ | ⟨_, _, _, impossible, _⟩
    · exact ⟨.refl, came⟩
    · cases impossible
  | succ more ih =>
    rcases settleOk run with ⟨rfl, rfl⟩ | ⟨_, next, _, ⟨⟩, stepped, run⟩
    · exact ⟨.refl, came⟩
    · obtain ⟨reached, fixed⟩ := ih run stepped
      exact ⟨.head came reached, fixed⟩

theorem fixedPointReaches {e r : Expr} (run : toFixedPoint settings pass step e = .ok r) :
    ReflTransGen (Leads step) e r ∧ step r = .ok r := by
  obtain ⟨first, stepped, run⟩ := bindOk.1 run
  exact settleReaches run stepped

theorem fixedPointStable {e r : Expr} (run : toFixedPoint settings pass step e = .ok r) :
    step r = .ok r :=
  (fixedPointReaches run).2

theorem fixedPointKeeps {P : Expr → Prop} (keeps : ∀ {a b}, P a → step a = .ok b → P b)
    {e r : Expr} (run : toFixedPoint settings pass step e = .ok r) (holds : P e) : P r := by
  have reached := (fixedPointReaches run).1
  clear run
  induction reached with
  | refl => exact holds
  | tail _ next ih => exact keeps ih next

theorem fixedPointRelated {A : Type u} {i : Interpretation A} {rel : A → A → Prop}
    (related : i.Compatible rel)
    (each : ∀ {a b}, step a = .ok b → rel (a.value i) (b.value i))
    {e r : Expr} (run : toFixedPoint settings pass step e = .ok r) :
    rel (e.value i) (r.value i) :=
  fixedPointKeeps (P := fun t => rel (e.value i) (t.value i))
    (fun before next => related.trans before (each next)) run (related.refl _)

end Loop

section Structure

variable {A : Type u} (i : Interpretation A) {settings : Settings} {e r : Expr}

theorem valueUnflattenOnce (e : Expr) : (unflattenOnce e).value i = e.value i :=
  (i.compatibleEq.bottomUp (fun e => (valueUnflattenNode i e).symm) e).symm

theorem flattenValue (run : flatten settings e = .ok r) : r.value i = e.value i := by
  refine (fixedPointRelated i.compatibleEq (fun {a b} stepped => ?_) run).symm
  cases stepped
  exact (valueFlattenOnce i a).symm

theorem unflattenValue (run : unflatten settings e = .ok r) : r.value i = e.value i := by
  refine (fixedPointRelated i.compatibleEq (fun {a b} stepped => ?_) run).symm
  cases stepped
  exact (valueUnflattenOnce i a).symm

variable {i}

theorem orderSumsValue (commutes : i.Commutative) (run : orderSums settings e = .ok r) :
    r.value i = e.value i := by
  refine (fixedPointRelated i.compatibleEq (fun {a b} stepped => ?_) run).symm
  cases stepped
  exact (valueOrderOnce commutes settings.hash .add a).symm

theorem orderProductsValue (commutes : i.Commutative) (run : orderProducts settings e = .ok r) :
    r.value i = e.value i := by
  refine (fixedPointRelated i.compatibleEq (fun {a b} stepped => ?_) run).symm
  cases stepped
  exact (valueOrderOnce commutes settings.hash .mul a).symm

theorem orderOperandsValue (commutes : i.Commutative) (run : orderOperands settings e = .ok r) :
    r.value i = e.value i := by
  refine (fixedPointRelated i.compatibleEq (fun {a b} stepped => ?_) run).symm
  obtain ⟨sums, first, second⟩ := bindOk.1 stepped
  rw [orderProductsValue commutes second, orderSumsValue commutes first]

end Structure

end Normalize

namespace Traced

def Gives {α : Type} (t : Traced α) (x : Except Fault α) : Prop := ∀ j, (t j).1 = x

theorem givesOfExcept {α : Type} (x : Except Fault α) : (ofExcept x).Gives x := fun _ => rfl

theorem givesPure {α : Type} (a : α) : (pure a : Traced α).Gives (.ok a) := fun _ => rfl

theorem givesThrow {α : Type} (fault : Fault) : (throw fault : Traced α).Gives (.error fault) :=
  fun _ => rfl

theorem givesTrace (label : String) (e : Expr) : (trace label e).Gives (.ok ()) := fun _ => rfl

theorem givesBind {α β : Type} {t : Traced α} {x : Except Fault α} {f : α → Traced β}
    {g : α → Except Fault β} (first : t.Gives x) (rest : ∀ a, (f a).Gives (g a)) :
    (t >>= f : Traced β).Gives (x >>= g) := by
  intro j
  have unfolded : (t >>= f : Traced β) j = match t j with
    | (.ok a, next) => f a next
    | (.error fault, next) => (.error fault, next) := by
    show ExceptT.bindCont f (t j).1 (t j).2 = _
    rcases t j with ⟨r, next⟩
    cases r <;> rfl
  have known := first j
  rw [unfolded]
  cases ran : t j with
  | mk r next =>
    rw [ran] at known
    subst known
    cases r with
    | error fault => rfl
    | ok a => exact rest a next

theorem givesIndented {α : Type} {t : Traced α} {x : Except Fault α} (inside : t.Gives x) :
    (indented t).Gives x := fun j => inside j.indent

end Traced

namespace Normalize

open Traced

section Results

variable {settings : Settings} {pass : String}

theorem settleGives {step : Expr → Traced Expr} {result : Expr → Except Fault Expr}
    (each : ∀ e, (step e).Gives (result e)) (more : Nat) (previous current : Expr) :
    (settle settings pass step more previous current).Gives
      (settle settings pass result more previous current) := by
  induction more generalizing previous current with
  | zero =>
    unfold settle
    split
    · exact givesPure _
    · cases checkSize settings pass current with
      | error fault => exact givesThrow fault
      | ok _ => exact givesThrow _
  | succ more ih =>
    unfold settle
    split
    · exact givesPure _
    · cases checkSize settings pass current with
      | error fault => exact givesThrow fault
      | ok _ => exact givesBind (each current) fun next => ih current next

theorem fixedPointGives {step : Expr → Traced Expr} {result : Expr → Except Fault Expr}
    (each : ∀ e, (step e).Gives (result e)) (e : Expr) :
    (toFixedPoint settings pass step e).Gives (toFixedPoint settings pass result e) :=
  givesBind (each e) fun first => settleGives each _ e first

end Results

def folded (settings : Settings) (flat : Expr) : Except Fault Expr :=
  match settings.constants with
  | .fold => foldConstants settings flat
  | .expand => .ok flat

def restructured (settings : Settings) (e : Expr) : Except Fault Expr := do
  let flat ← flatten settings e
  let combined ← folded settings flat
  let ordered ← orderOperands settings combined
  unflatten settings ordered

def distributedOnce (settings : Settings) (e : Expr) : Except Fault Expr := do
  let chains ← unflatten settings e
  let crossed ← chains.bottomUpM (distributeNode settings)
  restructured settings crossed

def distributed (settings : Settings) : Expr → Except Fault Expr :=
  toFixedPoint settings "Distributive" (distributedOnce settings)

def expanding : Settings := { constants := .expand }

theorem expandingByNumbers :
    expanding = { constants := .expand, hash := fun n => Digest.byNumbers n.message } := by
  rw [expanding, Node.digestEq]

def prepared (settings : Settings) (e : Expr) : Except Fault Expr :=
  match settings.constants with
  | .fold => .ok (negToMul (subToAdd e))
  | .expand => do
      let ones ← constToOnes settings (subToAdd e)
      pure (negToMul ones)

def signed (settings : Settings) (e : Expr) : Except Fault Expr := do
  let products ← distributed settings e
  let signs ← cleanSigns settings products
  let units ← cleanUnits settings signs
  takeSigns settings units

def normalized (settings : Settings) (e : Expr) : Except Fault Expr := do
  let start ← prepared settings e
  let terms ← signed settings start
  let left ← cancelOpposites settings terms
  restructured settings left

theorem quietGives (name : String) (f : Settings → Expr → Except Fault Expr) (settings : Settings)
    (e : Expr) : ((Pass.quiet name f).run settings e).Gives (f settings e) := fun _ => rfl

theorem runPassesGives {settings : Settings} {pass : Pass} {rest : List Pass} {e : Expr}
    {x : Except Fault Expr} {g : Expr → Except Fault Expr} (first : (pass.run settings e).Gives x)
    (others : ∀ e, (runPasses settings rest e).Gives (g e)) :
    (runPasses settings (pass :: rest) e).Gives (x >>= g) :=
  givesBind first fun next => givesBind (givesTrace pass.name next) fun _ => others next

theorem runPassesAlways (name : String) (f : Expr → Expr) {settings : Settings}
    {rest : List Pass} {g : Expr → Except Fault Expr}
    (others : ∀ e, (runPasses settings rest e).Gives (g e)) (e : Expr) :
    (runPasses settings (.always name f :: rest) e).Gives (g (f e)) :=
  runPassesGives (x := .ok (f e)) (fun _ => rfl) others

theorem lastPassGives {settings : Settings} {pass : Pass} {e : Expr} {x : Except Fault Expr}
    (first : (pass.run settings e).Gives x) : (runPasses settings [pass] e).Gives x := by
  have run : (runPasses settings [pass] e).Gives (x >>= fun e => .ok e) :=
    runPassesGives first givesPure
  rwa [show (x >>= fun e => .ok e) = x from bind_pure x] at run

theorem restructureGives (settings : Settings) (e : Expr) :
    (restructure settings e).Gives (restructured settings e) := by
  refine givesIndented ?_
  unfold restructuring restructured folded
  cases settings.constants with
  | fold =>
    refine runPassesGives (quietGives _ flatten settings e) fun flat => ?_
    refine runPassesGives (quietGives _ foldConstants settings flat) fun combined => ?_
    refine runPassesGives (quietGives _ orderOperands settings combined) fun ordered => ?_
    exact lastPassGives (quietGives _ unflatten settings ordered)
  | expand =>
    refine runPassesGives (quietGives _ flatten settings e) fun flat => ?_
    show Gives _ (orderOperands settings flat >>= unflatten settings)
    refine runPassesGives (quietGives _ orderOperands settings flat) fun ordered => ?_
    exact lastPassGives (quietGives _ unflatten settings ordered)

theorem distributeGives (settings : Settings) (e : Expr) :
    (distribute settings e).Gives (distributed settings e) := by
  refine fixedPointGives (fun e => ?_) e
  refine givesBind (givesOfExcept _) fun chains => ?_
  refine givesBind (givesOfExcept _) fun crossed => ?_
  exact givesBind (givesTrace _ crossed) fun _ => restructureGives settings crossed

theorem afterConstantsGive (settings : Settings) (e : Expr) :
    (runPasses settings
      [.negToMul, .distribute, .cleanSigns, .cleanUnits, .takeSigns, .cancelOpposites, .restructure]
      e).Gives (do
        let terms ← signed settings (negToMul e)
        let left ← cancelOpposites settings terms
        restructured settings left) := by
  refine runPassesAlways "ExpandUnary" negToMul (g := fun start => do
    let terms ← signed settings start
    let left ← cancelOpposites settings terms
    restructured settings left) (fun start => ?_) e
  unfold signed
  simp only [bind_assoc]
  refine runPassesGives (distributeGives settings start) fun products => ?_
  refine runPassesGives (quietGives _ cleanSigns settings products) fun signs => ?_
  refine runPassesGives (quietGives _ cleanUnits settings signs) fun units => ?_
  refine runPassesGives (quietGives _ takeSigns settings units) fun terms => ?_
  refine runPassesGives (quietGives _ cancelOpposites settings terms) fun left => ?_
  exact lastPassGives (restructureGives settings left)

theorem normalFormGives (settings : Settings) (e : Expr) :
    (normalForm settings e).Gives (normalized settings e) := by
  have run : (runPasses settings (pipeline settings) e).Gives (normalized settings e) := by
    unfold pipeline normalized prepared
    cases settings.constants with
    | fold => exact runPassesAlways "ExpandSub" subToAdd (afterConstantsGive settings) e
    | expand =>
      dsimp only
      rw [bind_assoc]
      exact runPassesAlways "ExpandSub" subToAdd (fun plain =>
        runPassesGives (quietGives _ constToOnes settings plain) (afterConstantsGive settings)) e
  exact givesBind (givesTrace "Input" e) fun _ => run

end Normalize

end ArithEquiv
