import ArithEquiv.Expr.Basic
import ArithEquiv.Text.Numeral

/-! Expressions as text. Every binary call stands in parentheses, a negation puts them around
its argument, and a flat call has none of its own. -/
namespace ArithEquiv.Expr

mutual

def renderOnto : Expr → (out : String) → String
  | .const value, out => out ++ Numeral.write value
  | .var name, out => out ++ name
  | .neg arg, out => renderOnto arg (out ++ "-(") ++ ")"
  | .bin op left right, out =>
      renderOnto right (renderOnto left (out ++ "(") ++ (" " ++ op.symbol ++ " ")) ++ ")"
  | .flat op first second rest, out =>
      renderRest op rest (renderOnto second (renderOnto first out ++ (" " ++ op.symbol ++ " ")))

def renderRest (op : AssocOp) : List Expr → (out : String) → String
  | [], out => out
  | e :: rest, out => renderRest op rest (renderOnto e (out ++ (" " ++ op.symbol ++ " ")))

end

def render (e : Expr) : String := renderOnto e ""

theorem renderRestAppend {es : List Expr} {a : String}
    (each : ∀ e ∈ es, ∀ b, renderOnto e (a ++ b) = a ++ renderOnto e b)
    (op : AssocOp) (b : String) :
    renderRest op es (a ++ b) = a ++ renderRest op es b := by
  induction es generalizing b with
  | nil => rfl
  | cons e rest ih =>
    rw [renderRest, String.append_assoc, each e (by simp),
      ih fun e mem => each e (by simp [mem]), renderRest]

theorem renderOntoAppend (e : Expr) (a b : String) :
    renderOnto e (a ++ b) = a ++ renderOnto e b := by
  induction e generalizing b with
  | const value => simp only [renderOnto, String.append_assoc]
  | var name => simp only [renderOnto, String.append_assoc]
  | neg arg ih => simp only [renderOnto, String.append_assoc, ih]
  | bin op left right ihl ihr => simp only [renderOnto, String.append_assoc, ihl, ihr]
  | flat op first second rest ihf ihs ihr =>
    simp only [renderOnto, String.append_assoc, ihf, ihs, renderRestAppend ihr]

theorem renderOntoEq (e : Expr) (out : String) : renderOnto e out = out ++ render e := by
  simpa [render] using renderOntoAppend e out ""

theorem renderConst (value : Int) : render (.const value) = Numeral.write value := by
  simp [render, renderOnto]

theorem renderVar (name : String) : render (.var name) = name := by
  simp [render, renderOnto]

theorem renderNeg (arg : Expr) : render (.neg arg) = "-(" ++ render arg ++ ")" := by
  rw [render, renderOnto, renderOntoEq, String.empty_append]

theorem renderBin (op : BinOp) (left right : Expr) :
    render (.bin op left right) =
      "(" ++ render left ++ (" " ++ op.symbol ++ " ") ++ render right ++ ")" := by
  rw [render, renderOnto, renderOntoEq right, renderOntoEq left, String.empty_append]

theorem renderRestEq (op : AssocOp) (e : Expr) (es : List Expr) (out : String) :
    renderRest op es (out ++ render e) =
      out ++ (" " ++ op.symbol ++ " ").intercalate ((e :: es).map render) := by
  induction es generalizing e out with
  | nil => simp [renderRest]
  | cons next rest ih =>
    rw [renderRest, renderOntoEq, ih]
    simp [String.append_assoc]

theorem renderFlat (op : AssocOp) (first second : Expr) (rest : List Expr) :
    render (.flat op first second rest) =
      (" " ++ op.symbol ++ " ").intercalate ((first :: second :: rest).map render) := by
  rw [render, renderOnto, renderOntoEq second, ← render, renderRestEq]
  simp [String.append_assoc]

end ArithEquiv.Expr
