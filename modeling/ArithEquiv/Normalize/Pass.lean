import ArithEquiv.Journal.Traced
import ArithEquiv.Normalize.Constants
import ArithEquiv.Normalize.Flatten
import ArithEquiv.Normalize.Order

/-! Named passes, run one after another with a trace of the tree after each. A restructuring
flattens, combines constants where that is wanted, puts operands in order and goes back to
binary calls: grouping and order are then forgotten. -/
namespace ArithEquiv

structure Pass where
  name : String
  run : Settings → Expr → Traced Expr

namespace Pass

def quiet (name : String) (f : Settings → Expr → Except Fault Expr) : Pass :=
  ⟨name, fun settings e => Traced.ofExcept (f settings e)⟩

def always (name : String) (f : Expr → Expr) : Pass :=
  quiet name fun _ e => .ok (f e)

def flatten : Pass := quiet "Flatten" Normalize.flatten

def unflatten : Pass := quiet "Unflatten" Normalize.unflatten

def foldConstants : Pass := quiet "FoldConstants" Normalize.foldConstants

def orderOperands : Pass := quiet "Canonicalize" Normalize.orderOperands

end Pass

namespace Normalize

def runPasses (settings : Settings) : List Pass → Expr → Traced Expr
  | [], e => pure e
  | pass :: rest, e => do
      let next ← pass.run settings e
      Traced.trace pass.name next
      runPasses settings rest next

def restructuring (settings : Settings) : List Pass :=
  match settings.constants with
  | .fold => [.flatten, .foldConstants, .orderOperands, .unflatten]
  | .expand => [.flatten, .orderOperands, .unflatten]

def restructure (settings : Settings) (e : Expr) : Traced Expr :=
  Traced.indented (runPasses settings (restructuring settings) e)

end Normalize

end ArithEquiv
