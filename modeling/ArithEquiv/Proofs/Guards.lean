import ArithEquiv.Equivalence
import ArithEquiv.Proofs.SignLaws

/-! The same program with a check wherever a tree is built from parts: every node is rebuilt from as
many children as it needs, every flat call has an associative operator and two operands, and what
should be a single tree is one. No check ever fails, so this program does what the other does. -/
namespace ArithEquiv

namespace Guarded

open Normalize

section Rewriting

variable (f : Expr → Except Fault Expr)

mutual

def rewrite : Expr → Except Fault Expr
  | .const value => f (.const value)
  | .var name => f (.var name)
  | .neg arg => do
      let a ← rewrite arg
      let rebuilt ← (Expr.neg arg).withChildren [a]
      f rebuilt
  | .bin op left right => do
      let l ← rewrite left
      let r ← rewrite right
      let rebuilt ← (Expr.bin op left right).withChildren [l, r]
      f rebuilt
  | .flat op first second rest => do
      let a ← rewrite first
      let b ← rewrite second
      let more ← rewriteAll rest
      let rebuilt ← (Expr.flat op first second rest).withChildren (a :: b :: more)
      f rebuilt

def rewriteAll : List Expr → Except Fault (List Expr)
  | [] => .ok []
  | e :: rest => do
      let r ← rewrite e
      let more ← rewriteAll rest
      .ok (r :: more)

end

end Rewriting

section Flattening

def call : Offer → Except Fault Expr
  | .single e => .ok e
  | .chain op reversed => Expr.ofOperands op.bin reversed.reverse

def splice (op : AssocOp) : Offer → Except Fault (List Expr)
  | .single e => .ok [e]
  | .chain inner reversed =>
    if inner = op then .ok reversed
    else do
      let operand ← call (.chain inner reversed)
      .ok [operand]

def offer : Node Offer → Except Fault Offer
  | .const value => .ok (.single (.const value))
  | .var name => .ok (.single (.var name))
  | .neg arg => do
      let a ← call arg
      .ok (.single (.neg a))
  | .bin op left right =>
    match op.assoc? with
    | some assoc => do
        let l ← splice assoc left
        let r ← splice assoc right
        .ok (.chain assoc (r ++ l))
    | none => do
        let l ← call left
        let r ← call right
        .ok (.single (.bin op l r))
  | .flat op args => do
      let parts ← args.mapM (splice op)
      .ok (.chain op (parts.foldl (fun before part => part ++ before) []))

def flattenTree (e : Expr) : Except Fault Expr := do
  let whole ← e.foldM offer
  call whole

end Flattening

section Nodes

def orderedNode (hash : NodeHash) (op : AssocOp) : Expr → Except Fault Expr
  | .flat inner first second rest =>
    if inner = op then
      (Expr.flat inner first second rest).withChildren
        (Sorting.sort (fun a b => (a.digest hash).le (b.digest hash)) (first :: second :: rest))
    else .ok (.flat inner first second rest)
  | .bin inner left right =>
    if inner = op.bin ∧ ¬ (left.digest hash).le (right.digest hash) then .ok (.bin inner right left)
    else .ok (.bin inner left right)
  | e => .ok e

def gather (op : AssocOp) : List Expr → Except Fault Expr
  | [] => .ok (.const op.identity)
  | [e] => .ok e
  | first :: second :: rest => Expr.ofOperands op.bin (first :: second :: rest)

def foldedNode : Expr → Except Fault Expr
  | .flat op first second rest =>
    let operands := (first :: second :: rest).flatMap (spliced op)
    let total := op.total (operands.filterMap Expr.const?)
    let others := operands.filter fun e => e.const?.isNone
    if op = .mul ∧ total = 0 then .ok (.const 0)
    else if total = op.identity then gather op others
    else do
      let constant ← Expr.ofConst total
      gather op (constant :: others)
  | e => .ok e

def parityNode : Expr → Except Fault Expr
  | .flat .mul first second rest =>
    let factors := first :: second :: rest
    let others := factors.filter fun e => !e.isConst (-1)
    let negOnes := factors.countP (·.isConst (-1))
    if negOnes = 0 then .ok (.flat .mul first second rest)
    else Expr.ofOperands .mul
      (.const (if negOnes % 2 = 0 then 1 else -1) :: .const 1 :: others)
  | e => .ok e

def factors : List Expr → Except Fault Expr
  | [e] => .ok e
  | es => Expr.ofOperands .mul es

def signNode : Expr → Except Fault Expr
  | .flat .mul first second rest =>
    match splitNegative? (first :: second :: rest) with
    | none => .ok (.flat .mul first second rest)
    | some (value, others) => do
        let positive ← factors (if value = -1 then others else .const (-value) :: others)
        .ok (.neg positive)
  | e => .ok e

def cancelledNode : Expr → Except Fault Expr
  | .flat .add first second rest => gather .add (cancelled (first :: second :: rest))
  | e => .ok e

def joint? : Summands → Option BinOp
  | .single _ => none
  | .chain op _ _ => some op

def joinTerms : Option BinOp → List Expr → Except Fault Expr
  | none, [term] => .ok term
  | none, other => .error (.childCount 1 other.length)
  | some op, first :: rest => .ok (leftChain op first rest)
  | some _, [] => .error (.childCount 1 0)

def distributedNode (settings : Settings) (e : Expr) : Except Fault Expr :=
  match e with
  | .bin .mul l r => crossing .mul (Summands.ofExpr l) (Summands.ofExpr r)
  | .bin .div l r => crossing .div (Summands.ofExpr l) (.single r)
  | _ => .ok e
where
  crossing (op : BinOp) (left right : Summands) : Except Fault Expr :=
    if left.isSingle && right.isSingle then .ok e
    else if (Summands.crossSize left right : Int) > settings.maxNodes then
      .error (.givenUp "Distributive"
        (.productTooLarge (Summands.crossSize left right) settings.maxNodes))
    else do
      let products ← left.terms.mapM fun l =>
        joinTerms (joint? right) (right.terms.map fun r => .bin op l r)
      joinTerms (joint? left) products

end Nodes

section Passes

def flatten (settings : Settings) : Expr → Except Fault Expr :=
  toFixedPoint settings "Flatten" flattenTree

def unflatten (settings : Settings) : Expr → Except Fault Expr :=
  toFixedPoint settings "Unflatten" (rewrite fun e => .ok (unflattenNode e))

def orderSums (settings : Settings) : Expr → Except Fault Expr :=
  toFixedPoint settings "CanonicalAdds" (rewrite (orderedNode settings.hash .add))

def orderProducts (settings : Settings) : Expr → Except Fault Expr :=
  toFixedPoint settings "CanonicalMuls" (rewrite (orderedNode settings.hash .mul))

def orderOperands (settings : Settings) : Expr → Except Fault Expr :=
  toFixedPoint settings "Canonicalize" fun e => do
    let sums ← orderSums settings e
    orderProducts settings sums

def foldConstants (settings : Settings) : Expr → Except Fault Expr :=
  toFixedPoint settings "FoldConstants" (rewrite foldedNode)

def cleanUnits (settings : Settings) : Expr → Except Fault Expr :=
  toFixedPoint settings "CleanZerosOnes" (rewrite dropUnitsNode)

def cleanSigns (settings : Settings) (e : Expr) : Except Fault Expr := do
  let flat ← flatten settings e
  let ordered ← orderProducts settings flat
  let reduced ← rewrite parityNode ordered
  unflatten settings reduced

def takeSigns (settings : Settings) (e : Expr) : Except Fault Expr := do
  let flat ← flatten settings e
  toFixedPoint settings "NegOnesToUnary" (rewrite signNode) flat

def cancelOpposites (settings : Settings) (e : Expr) : Except Fault Expr := do
  let flat ← flatten settings e
  toFixedPoint settings "ReduceAddNegates" (rewrite cancelledNode) flat

def restructuring (settings : Settings) : List Pass :=
  match settings.constants with
  | .fold =>
    [.quiet "Flatten" flatten, .quiet "FoldConstants" foldConstants,
      .quiet "Canonicalize" orderOperands, .quiet "Unflatten" unflatten]
  | .expand =>
    [.quiet "Flatten" flatten, .quiet "Canonicalize" orderOperands, .quiet "Unflatten" unflatten]

def restructure (settings : Settings) (e : Expr) : Traced Expr :=
  Traced.indented (runPasses settings (restructuring settings) e)

def distribute (settings : Settings) : Expr → Traced Expr :=
  toFixedPoint settings "Distributive" fun e => do
    let chains ← Traced.ofExcept (unflatten settings e)
    let distributed ← Traced.ofExcept (rewrite (distributedNode settings) chains)
    Traced.trace "Distribute" distributed
    restructure settings distributed

def pipeline (settings : Settings) : List Pass :=
  let afterConstants : List Pass :=
    [.quiet "ExpandUnary" fun _ => rewrite fun e => .ok (negToMulNode e),
      ⟨"Distributive", distribute⟩, .quiet "CleanNegOnes" cleanSigns,
      .quiet "CleanZerosOnes" cleanUnits, .quiet "NegOnesToUnary" takeSigns,
      .quiet "ReduceAddNegates" cancelOpposites, ⟨"Normalize", restructure⟩]
  let differences : Pass := .quiet "ExpandSub" fun _ => rewrite fun e => .ok (subToAddNode e)
  match settings.constants with
  | .fold => differences :: afterConstants
  | .expand =>
    differences :: .quiet "ExpandConst" (fun settings => rewrite (constToOnesNode settings)) ::
      afterConstants

def normalForm (settings : Settings) (e : Expr) : Traced Expr := do
  Traced.trace "Input" e
  runPasses settings (pipeline settings) e

def equivalent (settings : Settings) (first second : String) : Traced Bool := do
  let a ← Traced.ofExcept (Parse.ofSource first)
  let b ← Traced.ofExcept (Parse.ofSource second)
  let normalA ← normalForm settings a
  let normalB ← normalForm settings b
  pure (decide (normalA = normalB))

end Passes

end Guarded

end ArithEquiv
