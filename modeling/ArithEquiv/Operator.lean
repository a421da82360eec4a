/-! The operators of arithmetic expressions and how they are written. Addition and
multiplication are the associative ones: only they are regrouped or reordered. -/
namespace ArithEquiv

inductive BinOp where
  | add
  | sub
  | mul
  | div
  deriving DecidableEq, Repr

inductive AssocOp where
  | add
  | mul
  deriving DecidableEq, Repr

namespace AssocOp

def bin : AssocOp → BinOp
  | .add => .add
  | .mul => .mul

def identity : AssocOp → Int
  | .add => 0
  | .mul => 1

def apply : AssocOp → Int → Int → Int
  | .add, m, n => m + n
  | .mul, m, n => m * n

def total (op : AssocOp) (values : List Int) : Int :=
  values.foldl op.apply op.identity

end AssocOp

namespace BinOp

def symbol : BinOp → String
  | .add => "+"
  | .sub => "-"
  | .mul => "*"
  | .div => "/"

def ofSymbol? (text : String) : Option BinOp :=
  if text = "+" then some .add
  else if text = "-" then some .sub
  else if text = "*" then some .mul
  else if text = "/" then some .div
  else none

def assoc? : BinOp → Option AssocOp
  | .add => some .add
  | .mul => some .mul
  | _ => none

theorem ofSymbolSymbol (op : BinOp) : ofSymbol? op.symbol = some op := by
  cases op <;> decide

theorem assocIffBin {op : BinOp} {assoc : AssocOp} : op.assoc? = some assoc ↔ op = assoc.bin := by
  cases op <;> cases assoc <;> decide

end BinOp

namespace AssocOp

def symbol (op : AssocOp) : String := op.bin.symbol

theorem assocBin (op : AssocOp) : op.bin.assoc? = some op := by
  cases op <;> rfl

end AssocOp

end ArithEquiv
