import ArithEquiv.Digest.Basic
import ArithEquiv.Expr.Fold
import ArithEquiv.Expr.Render

/-! The digest of a tree is computed from its root and the digests of its children. How a
single node is hashed is a parameter: nothing but the order of operands depends on it. -/
namespace ArithEquiv

abbrev NodeHash := Node Digest → Digest

namespace Node

def tag {α : Type u} : Node α → String
  | .const _ => "const"
  | .var _ => "var"
  | .neg _ => "unary"
  | .bin _ _ _ => "binary"
  | .flat _ _ => "flat"

def payload {α : Type u} : Node α → String
  | .const value => Numeral.write value
  | .var name => name
  | .neg _ => "-"
  | .bin op _ _ => op.symbol
  | .flat op _ => op.symbol

def heading {α : Type u} (n : Node α) : String :=
  n.tag ++ ":" ++ n.payload.length.repr ++ ":" ++ n.payload

/-- The bytes that are hashed. The length of the payload in its heading keeps two nodes apart
whatever their payloads hold. -/
def message (n : Node Digest) : List UInt8 :=
  n.heading.toUTF8.data.toList ++ n.children.flatMap Digest.bytes

def digest : NodeHash := fun n => Digest.ofMessage n.message

end Node

namespace Expr

def digest (hash : NodeHash) (e : Expr) : Digest := e.fold hash

end Expr

end ArithEquiv
