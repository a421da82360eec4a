import ArithEquiv.Expr.Checked
import ArithEquiv.Expr.Fold
import ArithEquiv.Normalize.FixedPoint

/-! Arithmetic on the constants of flat calls, and writing constants out as sums of ones. -/
namespace ArithEquiv.Normalize

def spliced (op : AssocOp) : Expr → List Expr
  | .flat inner first second rest =>
    if inner = op then first :: second :: rest else [.flat inner first second rest]
  | e => [e]

def foldConstantsNode : Expr → Except Fault Expr
  | .flat op first second rest =>
    let operands := (first :: second :: rest).flatMap (spliced op)
    let total := op.total (operands.filterMap Expr.const?)
    let others := operands.filter fun e => e.const?.isNone
    if op = .mul ∧ total = 0 then .ok (.const 0)
    else if total = op.identity then .ok (.join op others)
    else do
      let constant ← Expr.ofConst total
      pure (.join op (constant :: others))
  | e => .ok e

def foldConstants (settings : Settings) : Expr → Except Fault Expr :=
  toFixedPoint settings "FoldConstants" fun e => e.bottomUpM foldConstantsNode

def ones : Nat → Expr
  | 0 => .const 0
  | n + 1 => .bin .add (ones n) (.const 1)

def constToOnesNode (settings : Settings) : Expr → Except Fault Expr
  | .const value =>
    if (2 * value.natAbs + 1 : Int) > settings.maxNodes then
      .error (.diverged "ExpandConst" (.constantTooLarge value))
    else if value < 0 then .ok (.neg (ones value.natAbs))
    else .ok (ones value.natAbs)
  | e => .ok e

def constToOnes (settings : Settings) (e : Expr) : Except Fault Expr :=
  e.bottomUpM (constToOnesNode settings)

end ArithEquiv.Normalize
