import ArithEquiv.Expr.Fold

/-! Differences as sums and negations as products. -/
namespace ArithEquiv.Normalize

def subToAddNode : Expr → Expr
  | .bin .sub left right => .bin .add left (.neg right)
  | e => e

def subToAdd (e : Expr) : Expr := e.bottomUp subToAddNode

def negToMulNode : Expr → Expr
  | .neg arg => .bin .mul (.const (-1)) arg
  | e => e

def negToMul (e : Expr) : Expr := e.bottomUp negToMulNode

end ArithEquiv.Normalize
