import ArithEquiv.Equivalence
import ArithEquiv.Scenarios

/-! A demonstration: the verdict on every scenario, and one normal form. -/
namespace ArithEquiv.Demo

def scenarioLine (settings : Settings) (s : Scenario) : Traced Unit := do
  let verdict ← check settings s.first s.second
  Traced.write fun j => j.line (s.source ++ "  ->  " ++ verdict.name)

def normalFormLine (settings : Settings) (source : String) : Traced Unit := do
  let e ← normalForm settings source
  Traced.write fun j => j.line ("normal_form(" ++ Quoted.write source ++ ") -> " ++ e.render)

def run (settings : Settings) : Traced Unit := do
  Traced.write fun j => j.title "ALGEBRAIC EQUIVALENCE"
  scenarios.forM (scenarioLine settings)
  Traced.ruled (normalFormLine settings "(a + b) * (a - b)")

def output (tracing : Bool) : String :=
  ((run {}).printed { tracing := tracing }).2.text

end ArithEquiv.Demo
