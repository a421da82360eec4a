import ArithEquiv.Expr.Basic

/-! Working a tree up from its leaves, children before their parent and left to right.
`recurseM` says it as a recursion. `foldM` is what runs: the nodes still open wait in a list
of frames, so that no tree is too deep for it. The two agree (`foldMEqRecurseM`), and the
equations of `foldM` and `fold` below are all that their users need. -/
namespace ArithEquiv.Expr

universe u v

section Recursion

variable {β : Type u} {m : Type u → Type v} [Monad m]

mutual

def recurseM (f : Node β → m β) : Expr → m β
  | .const value => f (.const value)
  | .var name => f (.var name)
  | .neg arg => do f (.neg (← recurseM f arg))
  | .bin op left right => do
      let l ← recurseM f left
      let r ← recurseM f right
      f (.bin op l r)
  | .flat op first second rest => do
      let a ← recurseM f first
      let b ← recurseM f second
      let more ← recurseAllM f rest
      f (.flat op (a :: b :: more))

def recurseAllM (f : Node β → m β) : List Expr → m (List β)
  | [] => pure []
  | e :: rest => do
      let b ← recurseM f e
      let more ← recurseAllM f rest
      pure (b :: more)

end

end Recursion

inductive Frame (β : Type u) where
  | neg
  | left (op : BinOp) (right : Expr)
  | right (op : BinOp) (left : β)
  | args (op : AssocOp) (done : List β) (todo : List Expr)

inductive Focus (β : Type u) where
  | enter (e : Expr)
  | finished (b : β)

namespace Frame

def pending {β : Type u} : Frame β → Nat
  | .neg => 1
  | .left _ waiting => 2 * waiting.size + 1
  | .right _ _ => 1
  | .args _ _ todo => 2 * sizes todo + 1

def allPending {β : Type u} : List (Frame β) → Nat
  | [] => 0
  | frame :: stack => frame.pending + allPending stack

end Frame

def Focus.pending {β : Type u} : Focus β → Nat
  | .enter e => 2 * e.size - 1
  | .finished _ => 0

section Walk

variable {β : Type u} {m : Type u → Type v} [Monad m]

@[specialize]
def walk (f : Node β → m β) (focus : Focus β) (stack : List (Frame β)) : m β :=
  match focus, stack with
  | .enter (.const value), stack => do
      let b ← f (.const value)
      walk f (.finished b) stack
  | .enter (.var name), stack => do
      let b ← f (.var name)
      walk f (.finished b) stack
  | .enter (.neg arg), stack => walk f (.enter arg) (.neg :: stack)
  | .enter (.bin op left right), stack => walk f (.enter left) (.left op right :: stack)
  | .enter (.flat op first second rest), stack =>
      walk f (.enter first) (.args op [] (second :: rest) :: stack)
  | .finished b, [] => pure b
  | .finished b, .neg :: stack => do
      let c ← f (.neg b)
      walk f (.finished c) stack
  | .finished b, .left op right :: stack => walk f (.enter right) (.right op b :: stack)
  | .finished b, .right op left :: stack => do
      let c ← f (.bin op left b)
      walk f (.finished c) stack
  | .finished b, .args op done [] :: stack => do
      let c ← f (.flat op (b :: done).reverse)
      walk f (.finished c) stack
  | .finished b, .args op done (e :: todo) :: stack =>
      walk f (.enter e) (.args op (b :: done) todo :: stack)
termination_by focus.pending + Frame.allPending stack
decreasing_by
  all_goals
    simp only [Focus.pending, Frame.pending, Frame.allPending, size, sizes]
    grind [sizePos]

@[specialize]
def foldM (f : Node β → m β) (e : Expr) : m β :=
  walk f (.enter e) []

end Walk

@[specialize]
def fold {β : Type u} (f : Node β → β) (e : Expr) : β :=
  Id.run (foldM (m := Id) (fun n => pure (f n)) e)

@[specialize]
def bottomUpM {m : Type → Type v} [Monad m] (f : Expr → m Expr) (e : Expr) : m Expr :=
  foldM (fun n => f n.build) e

@[specialize]
def bottomUp (f : Expr → Expr) (e : Expr) : Expr :=
  fold (fun n => f n.build) e

section Laws

variable {β : Type u} {m : Type u → Type v} [Monad m] [LawfulMonad m] (f : Node β → m β)

theorem walkArgs {es : List Expr}
    (each : ∀ e ∈ es, ∀ stack,
      walk f (.enter e) stack = recurseM f e >>= fun b => walk f (.finished b) stack)
    (op : AssocOp) (b : β) (done : List β) (stack : List (Frame β)) :
    walk f (.finished b) (.args op done es :: stack) =
      recurseAllM f es >>= fun more =>
        f (.flat op (done.reverse ++ b :: more)) >>= fun c => walk f (.finished c) stack := by
  induction es generalizing b done with
  | nil => rw [walk]; simp [recurseAllM]
  | cons e rest ih =>
    rw [walk, each e (by simp)]
    simp only [recurseAllM, bind_assoc, pure_bind]
    refine bind_congr fun c => ?_
    rw [ih fun e mem => each e (by simp [mem])]
    simp

theorem walkEnter (e : Expr) (stack : List (Frame β)) :
    walk f (.enter e) stack = recurseM f e >>= fun b => walk f (.finished b) stack := by
  induction e generalizing stack with
  | const value => rw [walk, recurseM]
  | var name => rw [walk, recurseM]
  | neg arg ih => rw [walk, ih, recurseM, bind_assoc]; simp only [walk]
  | bin op left right ihl ihr =>
    rw [walk, ihl, recurseM, bind_assoc]
    refine bind_congr fun l => ?_
    rw [walk, ihr, bind_assoc]
    simp only [walk]
  | flat op first second rest ihf ihs ihr =>
    rw [walk, ihf, recurseM, bind_assoc]
    refine bind_congr fun a => ?_
    rw [walkArgs f (by simpa using ⟨ihs, ihr⟩)]
    simp [recurseAllM]

theorem foldMEqRecurseM (e : Expr) : foldM f e = recurseM f e := by
  simp [foldM, walkEnter, walk]

theorem recurseAllMEqMapM (es : List Expr) : recurseAllM f es = es.mapM (foldM f) := by
  induction es with
  | nil => simp [recurseAllM]
  | cons e rest ih => simp [recurseAllM, ih, foldMEqRecurseM]

theorem foldMConst (value : Int) : foldM f (.const value) = f (.const value) := by
  rw [foldMEqRecurseM, recurseM]

theorem foldMVar (name : String) : foldM f (.var name) = f (.var name) := by
  rw [foldMEqRecurseM, recurseM]

theorem foldMNeg (arg : Expr) : foldM f (.neg arg) = foldM f arg >>= fun b => f (.neg b) := by
  simp only [foldMEqRecurseM, recurseM]

theorem foldMBin (op : BinOp) (left right : Expr) :
    foldM f (.bin op left right) =
      foldM f left >>= fun l => foldM f right >>= fun r => f (.bin op l r) := by
  simp only [foldMEqRecurseM, recurseM]

theorem foldMFlat (op : AssocOp) (first second : Expr) (rest : List Expr) :
    foldM f (.flat op first second rest) =
      (first :: second :: rest).mapM (foldM f) >>= fun args => f (.flat op args) := by
  simp [← recurseAllMEqMapM, foldMEqRecurseM, recurseM]

end Laws

section PureLaws

variable {β : Type u} (f : Node β → β)

theorem foldConst (value : Int) : fold f (.const value) = f (.const value) := by
  simp [fold, foldMConst]

theorem foldVar (name : String) : fold f (.var name) = f (.var name) := by
  simp [fold, foldMVar]

theorem foldNeg (arg : Expr) : fold f (.neg arg) = f (.neg (fold f arg)) := by
  simp [fold, foldMNeg]

theorem foldBin (op : BinOp) (left right : Expr) :
    fold f (.bin op left right) = f (.bin op (fold f left) (fold f right)) := by
  simp [fold, foldMBin]

theorem foldFlat (op : AssocOp) (first second : Expr) (rest : List Expr) :
    fold f (.flat op first second rest) =
      f (.flat op ((first :: second :: rest).map (fold f))) := by
  have each : fold f = fun e => (foldM (m := Id) (fun n => pure (f n)) e).run := rfl
  simp [each, foldMFlat]

end PureLaws

section ReplacementLaws

variable {m : Type → Type v} [Monad m] [LawfulMonad m] (f : Expr → m Expr)

theorem bottomUpMConst (value : Int) : bottomUpM f (.const value) = f (.const value) := by
  simp [bottomUpM, foldMConst, Node.build]

theorem bottomUpMVar (name : String) : bottomUpM f (.var name) = f (.var name) := by
  simp [bottomUpM, foldMVar, Node.build]

theorem bottomUpMNeg (arg : Expr) :
    bottomUpM f (.neg arg) = bottomUpM f arg >>= fun a => f (.neg a) := by
  simp [bottomUpM, foldMNeg, Node.build]

theorem bottomUpMBin (op : BinOp) (left right : Expr) :
    bottomUpM f (.bin op left right) =
      bottomUpM f left >>= fun l => bottomUpM f right >>= fun r => f (.bin op l r) := by
  simp [bottomUpM, foldMBin, Node.build]

theorem bottomUpMFlat (op : AssocOp) (first second : Expr) (rest : List Expr) :
    bottomUpM f (.flat op first second rest) =
      bottomUpM f first >>= fun a => bottomUpM f second >>= fun b =>
        rest.mapM (bottomUpM f) >>= fun more => f (.flat op a b more) := by
  have each : bottomUpM f = foldM (fun n => f n.build) := rfl
  simp [each, foldMFlat, Node.build, join]

variable (g : Expr → Expr)

theorem bottomUpConst (value : Int) : bottomUp g (.const value) = g (.const value) := by
  simp [bottomUp, foldConst, Node.build]

theorem bottomUpVar (name : String) : bottomUp g (.var name) = g (.var name) := by
  simp [bottomUp, foldVar, Node.build]

theorem bottomUpNeg (arg : Expr) : bottomUp g (.neg arg) = g (.neg (bottomUp g arg)) := by
  simp [bottomUp, foldNeg, Node.build]

theorem bottomUpBin (op : BinOp) (left right : Expr) :
    bottomUp g (.bin op left right) = g (.bin op (bottomUp g left) (bottomUp g right)) := by
  simp [bottomUp, foldBin, Node.build]

theorem bottomUpFlat (op : AssocOp) (first second : Expr) (rest : List Expr) :
    bottomUp g (.flat op first second rest) =
      g (.flat op (bottomUp g first) (bottomUp g second) (rest.map (bottomUp g))) := by
  have each : bottomUp g = fold (fun n => g n.build) := rfl
  simp [each, foldFlat, Node.build, join]

end ReplacementLaws

end ArithEquiv.Expr
