import ArithEquiv.Expr.Fold
import ArithEquiv.Normalize.FixedPoint

/-! Zeros and ones that say nothing are taken out of binary calls. -/
namespace ArithEquiv.Normalize

def dropUnits (op : BinOp) (left right : Expr) : Expr :=
  match op with
  | .mul =>
    if left.isConst 0 || right.isConst 0 then .const 0
    else if left.isConst 1 then right
    else if right.isConst 1 then left
    else .bin .mul left right
  | .add =>
    if left.isConst 0 then right
    else if right.isConst 0 then left
    else .bin .add left right
  | .sub =>
    if right.isConst 0 then left
    else if left.isConst 0 then .neg right
    else .bin .sub left right
  | .div => .bin .div left right

def dropUnitsNode : Expr → Except Fault Expr
  | .flat op first second rest => .error (.shape (.flatWhereBinary (.flat op first second rest)))
  | .bin op left right => .ok (dropUnits op left right)
  | e => .ok e

def cleanUnits (settings : Settings) : Expr → Except Fault Expr :=
  toFixedPoint settings "CleanZerosOnes" fun e => e.bottomUpM dropUnitsNode

end ArithEquiv.Normalize
