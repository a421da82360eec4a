import ArithEquiv.Expr.Checked
import ArithEquiv.Proofs.Nesting

/-! Walking over a tree with two stacks: one of nodes, each marked once its children lie above it,
and one of results, from whose end a node takes as many as it has children. The walk is the recursion
that works on the children from left to right and then on the node rebuilt from what they gave. So a
step is applied to each node once, after its children, up to the first node where it fails. -/
namespace ArithEquiv.Expr

open Normalize (Noted attempting)

mutual

def postorder : Expr → List Expr
  | .const value => [.const value]
  | .var name => [.var name]
  | .neg arg => arg.postorder ++ [.neg arg]
  | .bin op left right => left.postorder ++ right.postorder ++ [.bin op left right]
  | .flat op first second rest =>
      first.postorder ++ second.postorder ++ postorders rest ++ [.flat op first second rest]

def postorders : List Expr → List Expr
  | [] => []
  | e :: rest => e.postorder ++ postorders rest

end

theorem postordersEq (es : List Expr) : postorders es = es.flatMap postorder := by
  induction es with
  | nil => rfl
  | cons e rest ih => rw [postorders, ih, List.flatMap_cons]

theorem postorderEq (e : Expr) : e.postorder = e.children.flatMap postorder ++ [e] := by
  cases e <;> simp [postorder, postordersEq, children, node, Node.children]

theorem postorderLength (e : Expr) : e.postorder.length = e.size := by
  induction e with
  | const value => rfl
  | var name => rfl
  | neg arg ih => simp [postorder, size, ih, Nat.add_comm]
  | bin op left right ihl ihr =>
    simp only [postorder, size, List.length_append, List.length_singleton, ihl, ihr]
    omega
  | flat op first second rest ihf ihs ihr =>
    have others : (postorders rest).length = sizes rest := by
      rw [postordersEq, List.length_flatMap, sizesEqSum, List.map_congr_left ihr]
    simp only [postorder, size, List.length_append, List.length_singleton, ihf, ihs, others]
    omega

def refilled (e : Expr) (parts : List Expr) : Expr :=
  match e.withChildren parts with
  | .ok t => t
  | .error _ => e

theorem withChildrenFits {e : Expr} {parts : List Expr} (count : parts.length = e.children.length) :
    e.withChildren parts = .ok (e.refilled parts) := by
  suffices fits : ∃ t, e.withChildren parts = .ok t by
    obtain ⟨t, built⟩ := fits
    rw [refilled, built]
  cases e with
  | const value => exact ⟨_, rfl⟩
  | var name => exact ⟨_, rfl⟩
  | neg arg =>
    match parts, count with
    | [a], _ => exact ⟨_, rfl⟩
  | bin op left right =>
    match parts, count with
    | [l, r], _ => exact ⟨_, rfl⟩
  | flat op first second rest =>
    match parts, count with
    | a :: b :: more, _ => exact ⟨.flat op a b more, by simp [withChildren, ofOperands, AssocOp.assocBin]⟩

section Walk

variable {m : Type → Type v} [Monad m] (f : Expr → m Expr)

/-- A node to be worked on. Once it is opened its children have been worked on before it. -/
structure Task where
  node : Expr
  opened : Bool

def Task.cost (task : Task) : Nat := if task.opened then 1 else 2 * task.node.size

theorem costsChildren (es : List Expr) :
    ((es.map (Task.mk · false)).map Task.cost).sum = 2 * sizes es := by
  induction es with
  | nil => rfl
  | cons e rest ih =>
    simp only [List.map_cons, List.sum_cons, ih, sizes, Task.cost]
    simp [Nat.mul_add]

theorem sizeChildrenEq (e : Expr) : e.size = 1 + sizes e.children := by
  cases e <;> simp only [children, node, Node.children, sizes, size] <;> omega

theorem costOpened (e : Expr) (stack : List Task) :
    ((e.children.map (Task.mk · false) ++ Task.mk e true :: stack).map Task.cost).sum <
      ((Task.mk e false :: stack).map Task.cost).sum := by
  rw [List.map_append, List.sum_append, costsChildren]
  simp only [List.map_cons, List.sum_cons, Task.cost, if_true, Bool.false_eq_true, if_false,
    sizeChildrenEq e]
  omega

def runTasks : List Task → List Expr → ExceptT Fault m (List Expr)
  | [], results => pure results
  | task :: stack, results =>
    if task.node.children ≠ [] ∧ task.opened = false then
      runTasks (task.node.children.map (Task.mk · false) ++ Task.mk task.node true :: stack) results
    else do
      let before := results.length - task.node.children.length
      let rebuilt ← ExceptT.mk (pure (task.node.withChildren (results.drop before)))
      let result ← f rebuilt
      runTasks stack (results.take before ++ [result])
termination_by stack => (stack.map Task.cost).sum
decreasing_by
  · rename_i opening
    obtain ⟨node, opened⟩ := task
    obtain rfl : opened = false := opening.2
    exact costOpened node stack
  · have := sizePos task.node
    simp only [List.map_cons, List.sum_cons, Task.cost]
    split <;> omega

end Walk

section Recursion

variable {m : Type → Type v} [Monad m] [LawfulMonad m] (f : Expr → m Expr)

theorem bottomUpMNode (e : Expr) :
    bottomUpM f e = e.children.mapM (bottomUpM f) >>= fun parts => f (e.refilled parts) := by
  cases e with
  | const value => simp [bottomUpMConst, children, node, Node.children, refilled, withChildren]
  | var name => simp [bottomUpMVar, children, node, Node.children, refilled, withChildren]
  | neg arg => simp [bottomUpMNeg, children, node, Node.children, refilled, withChildren]
  | bin op left right => simp [bottomUpMBin, children, node, Node.children, refilled, withChildren]
  | flat op first second rest =>
    simp [bottomUpMFlat, children, node, Node.children, refilled, withChildren, ofOperands,
      AssocOp.assocBin]

theorem mapMThen {α : Type} {es : List Expr} {g : Expr → m Expr}
    {k k' : List Expr → ExceptT Fault m α} (same : ∀ rs, rs.length = es.length → k rs = k' rs) :
    (liftM (es.mapM g) >>= k) = liftM (es.mapM g) >>= k' := by
  induction es generalizing k k' with
  | nil => simp [same [] rfl]
  | cons e rest ih =>
    simp only [List.mapM_cons, liftM_bind, liftM_pure, bind_assoc, pure_bind]
    refine bind_congr fun r => ?_
    exact ih fun rs count => same (r :: rs) (by simp [count])

variable {f}

theorem runOpened {e : Expr} {opened : Bool} {parts : List Expr}
    (count : parts.length = e.children.length) (ready : e.children = [] ∨ opened = true)
    (stack : List Task) (results : List Expr) :
    runTasks f (⟨e, opened⟩ :: stack) (results ++ parts) =
      liftM (f (e.refilled parts)) >>= fun r => runTasks f stack (results ++ [r]) := by
  have closed : ¬(e.children ≠ [] ∧ opened = false) := by
    rcases ready with leaf | rfl
    · exact fun opening => opening.1 leaf
    · exact fun opening => Bool.noConfusion opening.2
  have before : (results ++ parts).length - e.children.length = results.length := by
    rw [List.length_append, count, Nat.add_sub_cancel]
  rw [runTasks, if_neg closed]
  dsimp only
  rw [before, List.drop_left, List.take_left, withChildrenFits count]
  exact pure_bind _ _

theorem runChildren {es : List Expr}
    (each : ∀ e ∈ es, ∀ stack results, runTasks f (⟨e, false⟩ :: stack) results =
      liftM (bottomUpM f e) >>= fun r => runTasks f stack (results ++ [r]))
    (stack : List Task) (results : List Expr) :
    runTasks f (es.map (Task.mk · false) ++ stack) results =
      liftM (es.mapM (bottomUpM f)) >>= fun rs => runTasks f stack (results ++ rs) := by
  induction es generalizing results with
  | nil => simp
  | cons e rest ih =>
    rw [List.map_cons, List.cons_append, each e (by simp)]
    simp only [List.mapM_cons, liftM_bind, liftM_pure, bind_assoc, pure_bind]
    refine bind_congr fun r => ?_
    rw [ih fun e mem => each e (by simp [mem])]
    simp

theorem runEnter (e : Expr) (stack : List Task) (results : List Expr) :
    runTasks f (⟨e, false⟩ :: stack) results =
      liftM (bottomUpM f e) >>= fun r => runTasks f stack (results ++ [r]) := by
  induction e using byChildren generalizing stack results with
  | each e ih =>
    rw [bottomUpMNode, liftM_bind, bind_assoc]
    by_cases leaf : e.children = []
    · have alone : runTasks f (⟨e, false⟩ :: stack) (results ++ []) = _ :=
        runOpened (by rw [leaf]) (.inl leaf) stack results
      rw [List.append_nil] at alone
      rw [alone, leaf, List.mapM_nil, liftM_pure, pure_bind]
    · rw [runTasks, if_pos ⟨leaf, rfl⟩, runChildren ih]
      exact mapMThen fun parts count => runOpened count (.inr rfl) stack results

theorem runTasksEq (e : Expr) :
    runTasks f [⟨e, false⟩] [] = liftM (bottomUpM f e) >>= fun r => pure [r] := by
  rw [runEnter]
  refine bind_congr fun r => ?_
  rw [runTasks, List.nil_append]

end Recursion

section Calls

variable {α β : Type} {g : Expr → Except Fault Expr} {nodes more : List Expr}

def offered (g : Expr → Except Fault Expr) (t : Expr) : Except Fault Expr :=
  t.children.mapM (bottomUpM g) >>= t.withChildren

structure Takes (g : Expr → Except Fault Expr) (t n : Expr) : Prop where
  rebuilt : offered g t = .ok n
  passed : ∃ r, g n = .ok r

structure Calls (g : Expr → Except Fault Expr) (nodes : List Expr) (x : Except Fault α)
    (calls : List Expr) : Prop where
  all : ∀ a, x = .ok a → List.Forall₂ (Takes g) nodes calls
  stopped : ∀ fault, x = .error fault → ∃ before t after earlier last,
    nodes = before ++ t :: after ∧ calls = earlier ++ [last] ∧
    List.Forall₂ (Takes g) before earlier ∧ offered g t = .ok last ∧ g last = .error fault

def Follows (g : Expr → Except Fault Expr) (nodes : List Expr) (x : Except Fault α) (t : Noted α) :
    Prop :=
  ∃ calls, (∀ seen, t seen = (x, seen ++ calls)) ∧ Calls g nodes x calls

theorem Follows.done (a : α) : Follows g [] (.ok a) (pure a) := by
  refine ⟨[], fun seen => ?_, fun _ _ => .nil, nofun⟩
  rw [List.append_nil]
  rfl

theorem Follows.call {t n : Expr} (rebuilt : offered g t = .ok n) :
    Follows g [t] (g n) (attempting g n) := by
  refine ⟨[n], fun seen => rfl, fun r passed => ?_, fun fault failed => ?_⟩
  · exact .cons ⟨rebuilt, r, passed⟩ .nil
  · exact ⟨[], t, [], [], n, rfl, rfl, .nil, rebuilt, failed⟩

theorem Follows.bind {x : Except Fault α} {t : Noted α} {k : α → Except Fault β} {f : α → Noted β}
    (first : Follows g nodes x t) (next : ∀ a, x = .ok a → Follows g more (k a) (f a)) :
    Follows g (nodes ++ more) (x >>= k) (t >>= f) := by
  obtain ⟨calls, run, ran⟩ := first
  have bound (seen : List Expr) : (t >>= f : Noted β) seen = ExceptT.bindCont f x (seen ++ calls) := by
    have unfolded : (t >>= f : Noted β) seen = ExceptT.bindCont f (t seen).1 (t seen).2 := rfl
    rw [unfolded, run]
  cases x with
  | error fault =>
    refine ⟨calls, bound, nofun, fun other same => ?_⟩
    cases same
    obtain ⟨before, t, after, earlier, last, split, parts, passed, rebuilt, failed⟩ := ran.stopped fault rfl
    exact ⟨before, t, after ++ more, earlier, last, by rw [split]; simp, parts, passed, rebuilt, failed⟩
  | ok a =>
    obtain ⟨others, runOthers, ranOthers⟩ := next a rfl
    have passed := ran.all a rfl
    refine ⟨calls ++ others, fun seen => ?_, fun b ok => ?_, fun fault failed => ?_⟩
    · have continued : ExceptT.bindCont f (.ok a) (seen ++ calls) = f a (seen ++ calls) := rfl
      rw [bound, continued, runOthers, List.append_assoc]
      rfl
    · exact List.rel_append passed (ranOthers.all b ok)
    · obtain ⟨before, t, after, earlier, last, rfl, rfl, passedMore, rebuilt, stuck⟩ :=
        ranOthers.stopped fault failed
      exact ⟨nodes ++ before, t, after, calls ++ earlier, last, by simp, by simp,
        List.rel_append passed passedMore, rebuilt, stuck⟩

theorem Follows.mapM {es : List Expr} (each : ∀ e ∈ es,
      Follows g e.postorder (bottomUpM g e) (bottomUpM (attempting g) e)) :
    Follows g (es.flatMap postorder) (es.mapM (bottomUpM g)) (es.mapM (bottomUpM (attempting g))) := by
  induction es with
  | nil => exact .done []
  | cons e rest ih =>
    have others := ih fun e mem => each e (by simp [mem])
    rw [List.mapM_cons, List.mapM_cons, List.flatMap_cons]
    refine (each e (by simp)).bind fun r _ => ?_
    have joined : Follows g (rest.flatMap postorder ++ []) _ _ :=
      others.bind fun rs _ => .done (r :: rs)
    rwa [List.append_nil] at joined

theorem followsBottomUp (g : Expr → Except Fault Expr) (e : Expr) :
    Follows g e.postorder (bottomUpM g e) (bottomUpM (attempting g) e) := by
  induction e using byChildren with
  | each e ih =>
    rw [bottomUpMNode, bottomUpMNode, postorderEq]
    refine (Follows.mapM ih).bind fun parts worked => .call ?_
    have count := (mapMOk.1 worked).length_eq
    rw [offered, worked]
    exact withChildrenFits count.symm

end Calls

def called (g : Expr → Except Fault Expr) (e : Expr) : Except Fault Expr × List Expr :=
  (bottomUpM (attempting g) e : Noted Expr) []

theorem walkRecurses {m : Type → Type v} [Monad m] [LawfulMonad m] (f : Expr → m Expr)
    (g : Expr → Except Fault Expr) (e : Expr) :
    bottomUpM f e = recurseM (fun n => f n.build) e ∧
    runTasks f [⟨e, false⟩] [] = (liftM (bottomUpM f e) >>= fun r => pure [r]) ∧
    (called g e).1 = bottomUpM g e ∧
    Calls g e.postorder (bottomUpM g e) (called g e).2 ∧
    ∀ r, bottomUpM g e = .ok r → (called g e).2.length = e.size := by
  obtain ⟨calls, run, ran⟩ := followsBottomUp g e
  have same : called g e = (bottomUpM g e, calls) := run []
  rw [same]
  refine ⟨foldMEqRecurseM _ e, runTasksEq e, rfl, ran, fun r ok => ?_⟩
  rw [← (ran.all r ok).length_eq, postorderLength]

def doublingNames : Expr → Except Fault Expr
  | .const 0 => .error (.diverged "Double" (.constantTooLarge 0))
  | .var name => .ok (.bin .add (.var name) (.var name))
  | e => .ok e

def zeroNegated : Expr := .flat .add (.bin .mul (.const 2) (.var "y")) (.neg (.const 0)) [.var "x"]

theorem walkRecursesRefused :
    called doublingNames zeroNegated = (.error (.diverged "Double" (.constantTooLarge 0)),
      [.const 2, .var "y", .bin .mul (.const 2) (.bin .add (.var "y") (.var "y")), .const 0]) ∧
    bottomUpM (attempting doublingNames) zeroNegated =
      recurseM (fun n => attempting doublingNames n.build) zeroNegated ∧
    runTasks (attempting doublingNames) [⟨zeroNegated, false⟩] [] =
      (liftM (bottomUpM (attempting doublingNames) zeroNegated) >>= fun r => pure [r]) ∧
    (called doublingNames zeroNegated).1 = bottomUpM doublingNames zeroNegated ∧
    Calls doublingNames zeroNegated.postorder (bottomUpM doublingNames zeroNegated)
      (called doublingNames zeroNegated).2 ∧
    ∀ r, bottomUpM doublingNames zeroNegated = .ok r →
      (called doublingNames zeroNegated).2.length = zeroNegated.size :=
  ⟨by decide +kernel, walkRecurses (attempting doublingNames) doublingNames zeroNegated⟩

end ArithEquiv.Expr
