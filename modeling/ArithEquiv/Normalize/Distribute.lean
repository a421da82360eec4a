import ArithEquiv.Normalize.Pass

/-! Multiplying out: every term of a sum meets every term of the other factor. A numerator is
distributed over its divisor, a divisor never. The size of a product is known before it is
built, and too large a one is refused. -/
namespace ArithEquiv.Normalize

inductive Summands where
  | single (term : Expr)
  | chain (op : BinOp) (first : Expr) (rest : List Expr)

namespace Summands

def spine (op : BinOp) : Expr → List Expr → Expr × List Expr
  | .bin inner left right, after =>
    if inner = op then spine op left (right :: after) else (.bin inner left right, after)
  | e, after => (e, after)

def ofExpr : Expr → Summands
  | .bin .add left right =>
    let (first, rest) := spine .add left [right]
    .chain .add first rest
  | .bin .sub left right =>
    let (first, rest) := spine .sub left [right]
    .chain .sub first rest
  | e => .single e

def terms : Summands → List Expr
  | .single term => [term]
  | .chain _ first rest => first :: rest

def map (f : Expr → Expr) : Summands → Summands
  | .single term => .single (f term)
  | .chain op first rest => .chain op (f first) (rest.map f)

def join : Summands → Expr
  | .single term => term
  | .chain op first rest => leftChain op first rest

def isSingle : Summands → Bool
  | .single _ => true
  | .chain _ _ _ => false

theorem leftChainSpine (op : BinOp) (e : Expr) (after : List Expr) :
    leftChain op (spine op e after).1 (spine op e after).2 = leftChain op e after := by
  induction e generalizing after with
  | bin inner left right ihl ihr =>
    rw [spine]
    split
    · rename_i same
      rw [ihl, same]
      rfl
    · rfl
  | _ => rfl

theorem joinOfExpr (e : Expr) : (ofExpr e).join = e := by
  cases e with
  | bin op left right => cases op <;> simp [ofExpr, join, leftChainSpine] <;> rfl
  | _ => rfl

def cross (op : BinOp) (left right : Summands) : Expr :=
  (left.map fun l => (right.map fun r => .bin op l r).join).join

def crossSize (left right : Summands) : Nat :=
  let rows := left.terms.length
  let columns := right.terms.length
  2 * rows * columns - 1 + columns * Expr.sizes left.terms + rows * Expr.sizes right.terms

end Summands

def multiplyOut (settings : Settings) (op : BinOp) (left right : Summands) : Except Fault Expr :=
  let size := Summands.crossSize left right
  if (size : Int) > settings.maxNodes then
    .error (.givenUp "Distributive" (.productTooLarge size settings.maxNodes))
  else .ok (Summands.cross op left right)

def distributeNode (settings : Settings) (e : Expr) : Except Fault Expr :=
  match e with
  | .bin .mul l r =>
    let left := Summands.ofExpr l
    let right := Summands.ofExpr r
    if left.isSingle && right.isSingle then .ok e else multiplyOut settings .mul left right
  | .bin .div l r =>
    let left := Summands.ofExpr l
    if left.isSingle then .ok e else multiplyOut settings .div left (.single r)
  | _ => .ok e

def distributeStep (settings : Settings) (e : Expr) : Traced Expr := do
  let chains ← Traced.ofExcept (unflatten settings e)
  let distributed ← Traced.ofExcept (chains.bottomUpM (distributeNode settings))
  Traced.trace "Distribute" distributed
  restructure settings distributed

def distribute (settings : Settings) : Expr → Traced Expr :=
  toFixedPoint settings "Distributive" (distributeStep settings)

end ArithEquiv.Normalize
