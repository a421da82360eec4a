import ArithEquiv.Fault

/-! Building trees from parts that may not fit together: constants may have too many digits,
flat calls need an associative operator and two operands, and each kind of node its number of
children. -/
namespace ArithEquiv.Expr

def ofConst (value : Int) : Except Fault Expr :=
  if Numeral.fits value then .ok (.const value) else .error (.numeral .tooLong)

def ofOperands (op : BinOp) (operands : List Expr) : Except Fault Expr :=
  match op.assoc? with
  | none => .error (.shape (.notAssociative op))
  | some assoc =>
    match operands with
    | first :: second :: rest => .ok (.flat assoc first second rest)
    | few => .error (.shape (.tooFewOperands assoc few.length))

def withChildren (e : Expr) (children : List Expr) : Except Fault Expr :=
  match e, children with
  | .const value, _ => .ok (.const value)
  | .var name, _ => .ok (.var name)
  | .neg _, [arg] => .ok (.neg arg)
  | .neg _, other => .error (.childCount 1 other.length)
  | .bin op _ _, [left, right] => .ok (.bin op left right)
  | .bin _ _ _, other => .error (.childCount 2 other.length)
  | .flat op _ _ _, operands => ofOperands op.bin operands

theorem withOwnChildren (e : Expr) : e.withChildren e.children = .ok e := by
  cases e <;> simp [withChildren, children, node, Node.children, ofOperands, AssocOp.assocBin]

end ArithEquiv.Expr
