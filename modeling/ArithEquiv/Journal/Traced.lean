import ArithEquiv.Expr.Render
import ArithEquiv.Fault
import ArithEquiv.Journal.Basic

/-! Computations that may fail and keep a journal. What was entered before a failure stays. -/
namespace ArithEquiv

abbrev Traced := ExceptT Fault (StateM Journal)

namespace Traced

def ofExcept {α : Type} (result : Except Fault α) : Traced α := fun j => (result, j)

def write (entry : Journal → Journal) : Traced Unit := fun j => (.ok (), entry j)

def trace (label : String) (e : Expr) : Traced Unit :=
  write fun j => j.trace label fun _ => e.render

def result {α : Type} (t : Traced α) : Except Fault α := (t {}).1

/-- The run with its entries printed as they come. Nothing on the way sees to an overflow: the first new
entry that cannot be laid out ends the run, and those before it stay. -/
def printed {α : Type} (t : Traced α) : Traced α := fun j =>
  let (result, after) := t j
  let fresh := after.entries.toList.drop j.entries.size
  match fresh.findSome? Entry.overflow? with
  | none => (result, after)
  | some cause =>
    let shown := fresh.takeWhile fun entry => entry.overflow?.isNone
    (.error (.overflow cause), { after with entries := j.entries ++ shown.toArray })

def indented {α : Type} (body : Traced α) : Traced α := fun j =>
  let (result, j) := body j.indent
  (result, j.dedent)

def ruled {α : Type} (body : Traced α) : Traced α := fun j =>
  let (result, j) := body (j.rule Journal.ruleWidth)
  (result, j.rule Journal.ruleWidth)

end Traced

end ArithEquiv
