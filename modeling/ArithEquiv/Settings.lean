import ArithEquiv.Expr.Fingerprint
import ArithEquiv.Fault

/-! What normalizing may be told: how to treat constants, where to give up, and how nodes are
hashed. Limits may be any integers; a step is taken at least once whatever they are. -/
namespace ArithEquiv

inductive ConstantStrategy where
  | fold
  | expand
  deriving DecidableEq, Repr

def ConstantStrategy.ofName (name : String) : Except Fault ConstantStrategy :=
  if name = "fold" then .ok .fold
  else if name = "expand" then .ok .expand
  else .error (.unknownStrategy name)

structure Settings where
  constants : ConstantStrategy := .fold
  maxIterations : Int := 1000
  maxNodes : Int := 100000
  hash : NodeHash := Node.digest

end ArithEquiv
