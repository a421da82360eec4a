import ArithEquiv.Normalize.Cancel
import ArithEquiv.Normalize.Desugar
import ArithEquiv.Normalize.Distribute
import ArithEquiv.Normalize.Signs
import ArithEquiv.Normalize.Units

/-! The passes by name, and the order in which they lead to the normal form. -/
namespace ArithEquiv

namespace Pass

def orderSums : Pass := quiet "CanonicalAdds" Normalize.orderSums

def orderProducts : Pass := quiet "CanonicalMuls" Normalize.orderProducts

def restructure : Pass := ⟨"Normalize", Normalize.restructure⟩

def subToAdd : Pass := always "ExpandSub" Normalize.subToAdd

def constToOnes : Pass := quiet "ExpandConst" Normalize.constToOnes

def negToMul : Pass := always "ExpandUnary" Normalize.negToMul

def distribute : Pass := ⟨"Distributive", Normalize.distribute⟩

def cleanUnits : Pass := quiet "CleanZerosOnes" Normalize.cleanUnits

def cleanSigns : Pass := quiet "CleanNegOnes" Normalize.cleanSigns

def takeSigns : Pass := quiet "NegOnesToUnary" Normalize.takeSigns

def cancelOpposites : Pass := quiet "ReduceAddNegates" Normalize.cancelOpposites

def all : List Pass :=
  [flatten, unflatten, orderSums, orderProducts, orderOperands, foldConstants, restructure,
    subToAdd, constToOnes, negToMul, distribute, cleanUnits, cleanSigns, takeSigns,
    cancelOpposites]

def named? (name : String) : Option Pass := all.find? (·.name == name)

end Pass

namespace Normalize

def pipeline (settings : Settings) : List Pass :=
  let afterConstants : List Pass :=
    [.negToMul, .distribute, .cleanSigns, .cleanUnits, .takeSigns, .cancelOpposites, .restructure]
  match settings.constants with
  | .fold => .subToAdd :: afterConstants
  | .expand => .subToAdd :: .constToOnes :: afterConstants

def normalForm (settings : Settings) (e : Expr) : Traced Expr := do
  Traced.trace "Input" e
  runPasses settings (pipeline settings) e

end Normalize

end ArithEquiv
