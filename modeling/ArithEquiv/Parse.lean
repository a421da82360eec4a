import ArithEquiv.Token.Cursor

/-! Reading expressions. A primary is a numeral, a name or a sum in parentheses; a unary is a
primary with at most one minus in front; a product joins unaries by `*` and `/`, and a sum
joins products by `+` and `-`, both to the left. Groups are read inside one another at most
`maxNesting` levels deep, where pairs around nothing but another pair do not count. -/
namespace ArithEquiv.Parse

def maxNesting : Nat := 100

abbrev Inside := Token → Cursor → Except Fault Expr

def chain (allowed : List BinOp) (operand : Reading Expr) :
    (bound : List Token) → Expr → Reading Expr
  | [], left => pure left
  | _ :: bound, left => do
      match (← get).peek.operator? allowed with
      | none => pure left
      | some op =>
        let _ ← Cursor.advance
        let right ← operand
        chain allowed operand bound (.bin op left right)

/-- Operands joined to the left. Every operator is a token ahead, which bounds their number. -/
def tier (allowed : List BinOp) (operand : Reading Expr) : Reading Expr := do
  let first ← operand
  chain allowed operand (← get).ahead first

def peel : (bound : List Token) → Cursor → Except Fault Cursor
  | [], group => .ok group
  | _ :: bound, group =>
    if group.isAt .opening then
      match Cursor.enclosed group with
      | (.error fault, _) => .error fault
      | (.ok inner, outer) => if outer.isAt .ending then peel bound inner else .ok group
    else .ok group

section Tiers

variable (inside : Inside)

def group : Reading Expr := do
  let opening := (← get).peek
  let enclosed ← Cursor.enclosed
  let peeled ← peel enclosed.ahead enclosed
  inside opening peeled

def primary : Reading Expr := do
  let token := (← get).peek
  match token.kind with
  | .opening => group inside
  | .numeral =>
    let _ ← Cursor.advance
    let value ← token.value
    pure (.const value)
  | .name =>
    let _ ← Cursor.advance
    pure (.var token.text)
  | _ => throw (.parse (.unexpected token.text token.position))

def unary : Reading Expr := do
  match (← get).peek.operator? [.sub] with
  | some _ =>
    let _ ← Cursor.advance
    let arg ← primary inside
    pure (.neg arg)
  | none => primary inside

def product : Reading Expr := tier [.mul, .div] (unary inside)

def sum : Reading Expr := tier [.add, .sub] (product inside)

def whole : Reading Expr := do
  let e ← sum inside
  let leftover := (← get).peek
  match leftover.kind with
  | .ending => pure e
  | .closing => throw (.parse (.unmatched leftover.position))
  | _ => throw (.parse (.unexpected leftover.text leftover.position))

end Tiers

def insideAt : (levels : Nat) → Inside
  | 0, opening, _ => .error (.parse (.tooDeep opening.position maxNesting))
  | levels + 1, _, group => (whole (insideAt levels) group).1

/-- Reads the inside of a group found at a nesting of `depth`; levels to spare make it negative. -/
def insideFrom (depth : Int) : Inside := insideAt (maxNesting - depth).toNat

def ofCursor (c : Cursor) : Except Fault Expr := (whole (insideFrom 0) c).1

def ofSource (source : String) : Except Fault Expr := ofCursor (Cursor.ofSource source)

end ArithEquiv.Parse
