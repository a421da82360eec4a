import ArithEquiv.Operator

/-! Arithmetic expressions. A `flat` call groups two or more operands of one associative
operator; reading text never gives one, normalizing does in between. `Node` is one layer of an
expression with anything in place of its children. -/
namespace ArithEquiv

inductive Expr where
  | const (value : Int)
  | var (name : String)
  | neg (arg : Expr)
  | bin (op : BinOp) (left right : Expr)
  | flat (op : AssocOp) (first second : Expr) (rest : List Expr)
  deriving Repr

inductive Node (α : Type u) where
  | const (value : Int)
  | var (name : String)
  | neg (arg : α)
  | bin (op : BinOp) (left right : α)
  | flat (op : AssocOp) (args : List α)
  deriving Repr

namespace Node

def map {α : Type u} {β : Type v} (f : α → β) : Node α → Node β
  | .const value => .const value
  | .var name => .var name
  | .neg arg => .neg (f arg)
  | .bin op left right => .bin op (f left) (f right)
  | .flat op args => .flat op (args.map f)

def children {α : Type u} : Node α → List α
  | .const _ => []
  | .var _ => []
  | .neg arg => [arg]
  | .bin _ left right => [left, right]
  | .flat _ args => args

end Node

namespace Expr

@[elab_as_elim, induction_eliminator]
theorem inductionOn {P : Expr → Prop}
    (const : ∀ value, P (.const value))
    (var : ∀ name, P (.var name))
    (neg : ∀ arg, P arg → P (.neg arg))
    (bin : ∀ op left right, P left → P right → P (.bin op left right))
    (flat : ∀ op first second rest, P first → P second → (∀ e ∈ rest, P e) →
      P (.flat op first second rest))
    (e : Expr) : P e :=
  @Expr.rec P (fun es => ∀ e ∈ es, P e)
    const var neg bin flat (by simp)
    (fun _ _ head tail e mem => (List.mem_cons.1 mem).elim (fun h => h ▸ head) (tail e)) e

def join (op : AssocOp) : List Expr → Expr
  | [] => .const op.identity
  | [e] => e
  | first :: second :: rest => .flat op first second rest

def node : Expr → Node Expr
  | .const value => .const value
  | .var name => .var name
  | .neg arg => .neg arg
  | .bin op left right => .bin op left right
  | .flat op first second rest => .flat op (first :: second :: rest)

def children (e : Expr) : List Expr := e.node.children

end Expr

namespace Node

def build : Node Expr → Expr
  | .const value => .const value
  | .var name => .var name
  | .neg arg => .neg arg
  | .bin op left right => .bin op left right
  | .flat op args => .join op args

end Node

namespace Expr

theorem buildNode (e : Expr) : e.node.build = e := by
  cases e <;> rfl

mutual

def size : Expr → Nat
  | .const _ => 1
  | .var _ => 1
  | .neg arg => 1 + arg.size
  | .bin _ left right => 1 + left.size + right.size
  | .flat _ first second rest => 1 + first.size + second.size + sizes rest

def sizes : List Expr → Nat
  | [] => 0
  | e :: rest => e.size + sizes rest

end

theorem sizesAppend (xs ys : List Expr) : sizes (xs ++ ys) = sizes xs + sizes ys := by
  induction xs with
  | nil => simp [sizes]
  | cons e rest ih => simp [sizes, ih, Nat.add_assoc]

theorem sizePos (e : Expr) : 0 < e.size := by
  cases e <;> simp only [size] <;> omega

def const? : Expr → Option Int
  | .const value => some value
  | _ => none

def isConst (value : Int) (e : Expr) : Bool := e.const? == some value

end Expr

end ArithEquiv
