import ArithEquiv.Normalize.Flatten

/-! Cancellation in sums. An operand counts for a term or against it: a negation against its
argument, a negative constant against its magnitude, anything else for itself. Operands for
and against the same term cancel in pairs, the first of each kind first. -/
namespace ArithEquiv.Normalize

inductive Signed where
  | plus (term : Expr)
  | minus (term : Expr)
  deriving DecidableEq

namespace Signed

def ofExpr : Expr → Signed
  | .neg arg => .minus arg
  | .const value => if value < 0 then .minus (.const (-value)) else .plus (.const value)
  | e => .plus e

def plus? : Signed → Option Expr
  | .plus term => some term
  | .minus _ => none

def minus? : Signed → Option Expr
  | .plus _ => none
  | .minus term => some term

end Signed

def common : List Expr → List Expr → List Expr
  | [], _ => []
  | term :: rest, others =>
    if term ∈ others then term :: common rest (others.erase term) else common rest others

def keep : List Expr → (gone : List Signed) → List Expr
  | [], _ => []
  | e :: rest, gone =>
    if Signed.ofExpr e ∈ gone then keep rest (gone.erase (Signed.ofExpr e))
    else e :: keep rest gone

def cancelled (operands : List Expr) : List Expr :=
  let readings := operands.map Signed.ofExpr
  let pairs := common (readings.filterMap Signed.minus?) (readings.filterMap Signed.plus?)
  keep operands (pairs.map .minus ++ pairs.map .plus)

def cancelNode : Expr → Expr
  | .flat .add first second rest => .join .add (cancelled (first :: second :: rest))
  | e => e

def cancelOpposites (settings : Settings) (e : Expr) : Except Fault Expr := do
  let flat ← flatten settings e
  toFixedPoint settings "ReduceAddNegates" (fun e => pure (e.bottomUp cancelNode)) flat

end ArithEquiv.Normalize
