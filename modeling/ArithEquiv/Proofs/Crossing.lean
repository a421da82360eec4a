import ArithEquiv.Proofs.Guards
import ArithEquiv.Proofs.Sizes

/-! What multiplying out builds, and when it is refused. An operand is split into the terms of the
longest chain that leans to the left, and joining them again gives the operand. Of two operands every
term of the one meets every term of the other: the terms of the left operand give a line each, in which
they meet the terms of the right one in order. The size of the whole is known from the terms, and the
tree is built if and only if it is no larger than the limit. -/
namespace ArithEquiv.Normalize

open ArithEquiv.Expr Guarded

inductive Chained : Option BinOp → List Expr → Expr → Prop where
  | alone (e : Expr) : Chained none [e] e
  | start (op : BinOp) (e : Expr) : Chained (some op) [e] e
  | next {op : BinOp} {es : List Expr} {e : Expr} (chained : Chained (some op) es e) (t : Expr) :
      Chained (some op) (es ++ [t]) (.bin op e t)

def Crossed (op : BinOp) (jointL : Option BinOp) (ls : List Expr) (jointR : Option BinOp)
    (rs : List Expr) (t : Expr) : Prop :=
  ∃ lines, List.Forall₂ (fun l line => Chained jointR (rs.map (.bin op l)) line) ls lines ∧
    Chained jointL lines t

section Splitting

theorem Chained.joined {joint : Option BinOp} {es : List Expr} {e : Expr}
    (chained : Chained joint es e) : joinTerms joint es = .ok e := by
  induction chained with
  | alone e => rfl
  | start op e => rfl
  | @next op es e _ t ih =>
    match es with
    | [] => cases ih
    | first :: rest =>
      have front : leftChain op first rest = e := Except.ok.inj ih
      rw [List.cons_append, joinTerms, chainSnoc, front]

theorem Chained.unique {joint : Option BinOp} {es : List Expr} {t u : Expr}
    (one : Chained joint es t) (other : Chained joint es u) : t = u :=
  Except.ok.inj (one.joined.symm.trans other.joined)

end Splitting

section Crossing

variable {op : BinOp} {jointL jointR : Option BinOp} {ls rs : List Expr} {t u : Expr}

theorem Crossed.unique (one : Crossed op jointL ls jointR rs t) (other : Crossed op jointL ls jointR rs u) :
    t = u := by
  obtain ⟨lines, each, whole⟩ := one
  obtain ⟨lines', each', whole'⟩ := other
  have functional : Relator.RightUnique fun l line => Chained jointR (rs.map (.bin op l)) line :=
    fun _ _ _ => Chained.unique
  obtain rfl := List.right_unique_forall₂' functional each each'
  exact whole.unique whole'

end Crossing

end ArithEquiv.Normalize
