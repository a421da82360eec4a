import ArithEquiv.Normalize.Flatten
import ArithEquiv.Normalize.Order

/-! Signs in products. The factors minus one of a product are reduced to their parity; a
negative factor becomes a negation of the whole product. -/
namespace ArithEquiv.Normalize

/-- An even number of factors minus one leaves one, an odd number leaves one of them. A further
factor one keeps two operands where no other factor is left. -/
def signParityNode : Expr → Expr
  | .flat .mul first second rest =>
    let factors := first :: second :: rest
    let others := factors.filter fun e => !e.isConst (-1)
    let negOnes := factors.countP (·.isConst (-1))
    if negOnes = 0 then .flat .mul first second rest
    else .flat .mul (.const (if negOnes % 2 = 0 then 1 else -1)) (.const 1) others
  | e => e

def cleanSigns (settings : Settings) (e : Expr) : Except Fault Expr := do
  let flat ← flatten settings e
  let ordered ← orderProducts settings flat
  unflatten settings (ordered.bottomUp signParityNode)

def negative? (e : Expr) : Option Int := e.const?.filter (· < 0)

def splitNegative? : List Expr → Option (Int × List Expr)
  | [] => none
  | e :: rest =>
    match negative? e with
    | some value => some (value, rest)
    | none => (splitNegative? rest).map fun (value, others) => (value, e :: others)

def takeSignNode : Expr → Expr
  | .flat .mul first second rest =>
    match splitNegative? (first :: second :: rest) with
    | none => .flat .mul first second rest
    | some (value, others) =>
      .neg (.join .mul (if value = -1 then others else .const (-value) :: others))
  | e => e

def takeSigns (settings : Settings) (e : Expr) : Except Fault Expr := do
  let flat ← flatten settings e
  toFixedPoint settings "NegOnesToUnary" (fun e => pure (e.bottomUp takeSignNode)) flat

end ArithEquiv.Normalize
