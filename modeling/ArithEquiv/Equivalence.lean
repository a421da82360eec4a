import ArithEquiv.Parse
import ArithEquiv.Normalize.Pipeline

/-! Whether two texts are the same expression: both are read, then both are normalized and
the normal forms compared. Equal normal forms mean equal values; different ones mean nothing. -/
namespace ArithEquiv

def normalForm (settings : Settings) (source : String) : Traced Expr := do
  let e ← Traced.ofExcept (Parse.ofSource source)
  Normalize.normalForm settings e

def equivalent (settings : Settings) (first second : String) : Traced Bool := do
  let a ← Traced.ofExcept (Parse.ofSource first)
  let b ← Traced.ofExcept (Parse.ofSource second)
  let normalA ← Normalize.normalForm settings a
  let normalB ← Normalize.normalForm settings b
  pure (decide (normalA = normalB))

/-- What a user is told about a fault. Only text that cannot be read and a normal form that
was not reached are the user's business. -/
def Fault.notice? : Fault → Option String
  | .parse cause => some s!"Syntax error: {cause.message}"
  | .diverged pass cause =>
      some s!"Could not determine equivalence: {(Fault.diverged pass cause).message}"
  | _ => none

inductive Verdict where
  | decided (same : Bool)
  | undecided (notice : String)
  deriving DecidableEq, Repr

namespace Verdict

def toBool? : Verdict → Option Bool
  | .decided same => some same
  | .undecided _ => none

def complaint : Verdict → String
  | .decided _ => ""
  | .undecided notice => notice ++ "\n"

def name : Verdict → String
  | .decided true => "True"
  | .decided false => "False"
  | .undecided _ => "None"

end Verdict

def check (settings : Settings) (first second : String) : Traced Verdict := fun j =>
  match equivalent settings first second j with
  | (.ok same, j) => (.ok (.decided same), j)
  | (.error fault, j) =>
    match fault.notice? with
    | some notice => (.ok (.undecided notice), j)
    | none => (.error fault, j)

end ArithEquiv
