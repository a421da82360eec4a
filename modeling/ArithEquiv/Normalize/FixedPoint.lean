import ArithEquiv.Expr.Equality
import ArithEquiv.Settings

/-! Repeating a step until it changes nothing. Between two applications the tree may not be
larger than the settings allow, and the step is applied no oftener than they allow, but at
least once. -/
namespace ArithEquiv.Normalize

def checkSize (settings : Settings) (pass : String) (e : Expr) : Except Fault Unit :=
  if (e.size : Int) > settings.maxNodes then
    .error (.givenUp pass (.treeTooLarge e.size settings.maxNodes))
  else .ok ()

section Loop

variable {m : Type → Type v} [Monad m] [MonadExcept Fault m]

/-- The step gave `current` for `previous` and may be applied `more` times. -/
@[specialize]
def settle (settings : Settings) (pass : String) (step : Expr → m Expr) :
    (more : Nat) → (previous current : Expr) → m Expr
  | more, previous, current =>
    if previous = current then pure current
    else
      match checkSize settings pass current, more with
      | .error fault, _ => throw fault
      | .ok (), 0 => throw (.givenUp pass (.unstable (max 1 settings.maxIterations).toNat))
      | .ok (), more + 1 => do
          let next ← step current
          settle settings pass step more current next

@[specialize]
def toFixedPoint (settings : Settings) (pass : String) (step : Expr → m Expr) (e : Expr) :
    m Expr := do
  let first ← step e
  settle settings pass step (settings.maxIterations - 1).toNat e first

end Loop

end ArithEquiv.Normalize
