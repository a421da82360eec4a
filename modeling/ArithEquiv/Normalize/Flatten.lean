import ArithEquiv.Expr.Fold
import ArithEquiv.Normalize.FixedPoint

/-! Chains of one associative operator become a single flat call, and flat calls become chains
that lean to the left. -/
namespace ArithEquiv.Normalize

/-- What a flattened tree offers to a call around it: itself, or as the operands of a chain, the
last one first. -/
inductive Offer where
  | single (e : Expr)
  | chain (op : AssocOp) (reversed : List Expr)

namespace Offer

def expr : Offer → Expr
  | .single e => e
  | .chain op reversed => .join op reversed.reverse

def operands (op : AssocOp) : Offer → List Expr
  | .single e => [e]
  | .chain inner reversed => if inner = op then reversed else [.join inner reversed.reverse]

def ofNode : Node Offer → Offer
  | .const value => .single (.const value)
  | .var name => .single (.var name)
  | .neg arg => .single (.neg arg.expr)
  | .bin op left right =>
    match op.assoc? with
    | some assoc => .chain assoc (right.operands assoc ++ left.operands assoc)
    | none => .single (.bin op left.expr right.expr)
  | .flat op args => .chain op (args.foldl (fun before arg => arg.operands op ++ before) [])

end Offer

def flattenOnce (e : Expr) : Expr := (e.fold Offer.ofNode).expr

def operandsFor (op : AssocOp) (e : Expr) : List Expr :=
  ((e.fold Offer.ofNode).operands op).reverse

theorem flattenConst (value : Int) : flattenOnce (.const value) = .const value := by
  simp [flattenOnce, Expr.foldConst, Offer.ofNode, Offer.expr]

theorem flattenVar (name : String) : flattenOnce (.var name) = .var name := by
  simp [flattenOnce, Expr.foldVar, Offer.ofNode, Offer.expr]

theorem flattenNeg (arg : Expr) : flattenOnce (.neg arg) = .neg (flattenOnce arg) := by
  simp [flattenOnce, Expr.foldNeg, Offer.ofNode, Offer.expr]

theorem flattenOther {op : BinOp} (other : op.assoc? = none) (left right : Expr) :
    flattenOnce (.bin op left right) = .bin op (flattenOnce left) (flattenOnce right) := by
  simp [flattenOnce, Expr.foldBin, Offer.ofNode, Offer.expr, other]

theorem operandsForBin (op : AssocOp) (left right : Expr) :
    operandsFor op (.bin op.bin left right) = operandsFor op left ++ operandsFor op right := by
  simp [operandsFor, Expr.foldBin, Offer.ofNode, Offer.operands, AssocOp.assocBin]

theorem flattenBin (op : AssocOp) (left right : Expr) :
    flattenOnce (.bin op.bin left right) =
      .join op (operandsFor op left ++ operandsFor op right) := by
  simp [flattenOnce, operandsFor, Expr.foldBin, Offer.ofNode, Offer.expr, AssocOp.assocBin]

theorem foldOperandsReverse (op : AssocOp) (offers : List Offer) (before : List Expr) :
    (offers.foldl (fun before arg => arg.operands op ++ before) before).reverse =
      before.reverse ++ offers.flatMap fun arg => (arg.operands op).reverse := by
  induction offers generalizing before with
  | nil => simp
  | cons offer rest ih =>
    rw [List.foldl_cons, ih, List.reverse_append, List.append_assoc, List.flatMap_cons]

theorem operandsSelf (op : AssocOp) (reversed : List Expr) :
    (Offer.chain op reversed).operands op = reversed := by
  simp [Offer.operands]

theorem operandsForFlat (op : AssocOp) (first second : Expr) (rest : List Expr) :
    operandsFor op (.flat op first second rest) =
      (first :: second :: rest).flatMap (operandsFor op) := by
  rw [operandsFor, Expr.foldFlat, Offer.ofNode, operandsSelf, foldOperandsReverse,
    List.flatMap_map]
  rfl

def rootOp? : Expr → Option AssocOp
  | .bin op _ _ => op.assoc?
  | .flat op _ _ _ => some op
  | _ => none

theorem operandsForOther {op : AssocOp} {e : Expr} (other : rootOp? e ≠ some op) :
    operandsFor op e = [flattenOnce e] := by
  cases e with
  | const value =>
    simp [operandsFor, flattenOnce, Expr.foldConst, Offer.ofNode, Offer.operands, Offer.expr]
  | var name =>
    simp [operandsFor, flattenOnce, Expr.foldVar, Offer.ofNode, Offer.operands, Offer.expr]
  | neg arg =>
    simp [operandsFor, flattenOnce, Expr.foldNeg, Offer.ofNode, Offer.operands, Offer.expr]
  | bin inner left right =>
    rw [operandsFor, flattenOnce, Expr.foldBin, Offer.ofNode]
    split
    · rename_i assoc found
      have differ : assoc ≠ op := fun h => other (by rw [rootOp?, found, h])
      simp [Offer.operands, Offer.expr, differ]
    · simp [Offer.operands, Offer.expr]
  | flat inner first second rest =>
    have differ : inner ≠ op := fun h => other (by rw [rootOp?, h])
    rw [operandsFor, flattenOnce, Expr.foldFlat, Offer.ofNode]
    simp [Offer.operands, Offer.expr, differ]

theorem flattenFlat (op : AssocOp) (first second : Expr) (rest : List Expr) :
    flattenOnce (.flat op first second rest) =
      .join op ((first :: second :: rest).flatMap (operandsFor op)) := by
  rw [flattenOnce, Expr.foldFlat, Offer.ofNode, Offer.expr, foldOperandsReverse,
    List.flatMap_map]
  rfl

def flatten (settings : Settings) : Expr → Except Fault Expr :=
  toFixedPoint settings "Flatten" fun e => pure (flattenOnce e)

def leftChain (op : BinOp) (first : Expr) (rest : List Expr) : Expr :=
  rest.foldl (.bin op) first

def unflattenNode : Expr → Expr
  | .flat op first second rest => leftChain op.bin first (second :: rest)
  | e => e

def unflattenOnce (e : Expr) : Expr := e.bottomUp unflattenNode

def unflatten (settings : Settings) : Expr → Except Fault Expr :=
  toFixedPoint settings "Unflatten" fun e => pure (unflattenOnce e)

end ArithEquiv.Normalize
