/-! A journal of indented lines. Plain lines and rules are always entered; traces, and the
indentation that goes with them, only while tracing is on. -/
namespace ArithEquiv

/-- Why a text cannot be repeated: the count is no index, or the length would be none. -/
inductive Overflow where
  | count
  | length
  deriving DecidableEq, Repr

def Overflow.message : Overflow → String
  | .count => "cannot fit 'int' into an index-sized integer"
  | .length => "repeated string is too long"

/-- Indices have 64 bits, one of them for the sign. -/
def isIndex (n : Int) : Bool := -0x8000000000000000 ≤ n && n < 0x8000000000000000

structure Margin where
  size : Int
  depth : Int
  deriving DecidableEq, Repr

namespace Margin

/-- A margin that would be negative is none. -/
def width (m : Margin) : Nat := m.size.toNat * m.depth.toNat

def overflow? (m : Margin) : Option Overflow :=
  if !(isIndex m.size && isIndex m.depth) then some .count
  else if isIndex m.width then none
  else some .length

end Margin

inductive Entry where
  | trace (margin : Margin) (label value : String)
  | line (margin : Margin) (text : String)
  | rule (width : Nat)
  deriving DecidableEq, Repr

def spaces (n : Nat) : String := String.ofList (List.replicate n ' ')

def Entry.overflow? : Entry → Option Overflow
  | .trace margin _ _ => margin.overflow?
  | .line margin _ => margin.overflow?
  | .rule width => if isIndex width then none else some .count

def Entry.text : Entry → String
  | .trace margin label value => spaces margin.width ++ label ++ " =>\t" ++ value ++ "\n"
  | .line margin text => spaces margin.width ++ text ++ "\n"
  | .rule width => String.ofList (List.replicate width '-') ++ "\n"

structure Journal where
  indentSize : Int := 3
  depth : Int := 0
  tracing : Bool := false
  /-- All entries so far, the oldest first. -/
  entries : Array Entry := #[]
  deriving DecidableEq, Repr

namespace Journal

def ruleWidth : Int := 80

def margin (j : Journal) : Margin := ⟨j.indentSize, j.depth⟩

def enter (j : Journal) (entry : Entry) : Journal := { j with entries := j.entries.push entry }

/-- Enters a labelled value; the value is worked out only if it is entered. -/
def trace (j : Journal) (label : String) (value : Unit → String) : Journal :=
  if j.tracing then j.enter (.trace j.margin label (value ())) else j

def rule (j : Journal) (width : Int) : Journal := j.enter (.rule width.toNat)

def line (j : Journal) (text : String) : Journal := j.enter (.line j.margin text)

def title (j : Journal) (text : String) : Journal := ((j.rule ruleWidth).line text).rule ruleWidth

def indent (j : Journal) : Journal := if j.tracing then { j with depth := j.depth + 1 } else j

def dedent (j : Journal) : Journal := if j.tracing then { j with depth := j.depth - 1 } else j

def text (j : Journal) : String := String.join (j.entries.toList.map Entry.text)

def cleared (j : Journal) : Journal := { j with entries := #[] }

end Journal

end ArithEquiv
