/-! Pairs of expressions with the verdict expected of each. -/
namespace ArithEquiv

structure Scenario where
  first : String
  second : String
  expected : Bool
  deriving DecidableEq, Repr

def Scenario.source (s : Scenario) : String := s.first ++ "  ==  " ++ s.second

def scenarios : List Scenario :=
  [⟨"a + b", "b + a", true⟩,
    ⟨"a * b", "b * a", true⟩,
    ⟨"(a + b) + c", "a + (b + c)", true⟩,
    ⟨"a * (b + c)", "a*b + c*a", true⟩,
    ⟨"x - y", "-(y - x)", true⟩,
    ⟨"((x))", "x", true⟩,
    ⟨"-(-x)", "x", true⟩,
    ⟨"x + (-x)", "0", true⟩,
    ⟨"x * 1", "x", true⟩,
    ⟨"x * 0", "0", true⟩,
    ⟨"x + 0", "x", true⟩,
    ⟨"(a + b) * (a - b)", "a*a - b*b", true⟩,
    ⟨"(a + b) / c", "a/c + b/c", true⟩,
    ⟨"x + 1", "x + 2", false⟩,
    ⟨"a / b", "b / a", false⟩,
    ⟨"a - b", "b - a", false⟩]

end ArithEquiv
