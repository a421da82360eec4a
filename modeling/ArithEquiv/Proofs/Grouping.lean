import ArithEquiv.Proofs.Runs
import Mathlib.Data.List.Induction

/-! Trees without binary sums and products, and trees without flat calls. One sweep of flattening
gives the first, one of unflattening the second, and neither changes what it would give. A pass
whose step changes nothing the second time is therefore that step. -/
namespace ArithEquiv

namespace Normalize

open ArithEquiv.Expr

inductive Flattened : Expr → Prop where
  | const (n : Int) : Flattened (.const n)
  | var (name : String) : Flattened (.var name)
  | neg {arg : Expr} (inner : Flattened arg) : Flattened (.neg arg)
  | bin {op : BinOp} {left right : Expr} (other : op.assoc? = none) (onLeft : Flattened left)
      (onRight : Flattened right) : Flattened (.bin op left right)
  | flat {op : AssocOp} {first second : Expr} {rest : List Expr}
      (each : ∀ e ∈ first :: second :: rest, Flattened e)
      (apart : ∀ e ∈ first :: second :: rest, rootOp? e ≠ some op) :
      Flattened (.flat op first second rest)

inductive Unflattened : Expr → Prop where
  | const (n : Int) : Unflattened (.const n)
  | var (name : String) : Unflattened (.var name)
  | neg {arg : Expr} (inner : Unflattened arg) : Unflattened (.neg arg)
  | bin {op : BinOp} {left right : Expr} (onLeft : Unflattened left)
      (onRight : Unflattened right) : Unflattened (.bin op left right)

theorem flattenedJoin {op : AssocOp} {es : List Expr} (each : ∀ e ∈ es, Flattened e)
    (apart : ∀ e ∈ es, rootOp? e ≠ some op) : Flattened (.join op es) := by
  match es with
  | [] => exact .const _
  | [e] => exact each e (by simp)
  | first :: second :: rest => exact .flat each apart

theorem rootJoin {op : AssocOp} {es : List Expr} (many : 2 ≤ es.length) :
    rootOp? (.join op es) = some op := by
  match es with
  | first :: second :: rest => rfl

structure FlattensWell (e : Expr) : Prop where
  flattened : Flattened (flattenOnce e)
  root : rootOp? (flattenOnce e) = rootOp? e
  many : ∀ op, rootOp? e = some op → 2 ≤ (operandsFor op e).length
  operands : ∀ op, ∀ t ∈ operandsFor op e, Flattened t ∧ rootOp? t ≠ some op

theorem FlattensWell.ofOther {e : Expr} (flattened : Flattened (flattenOnce e))
    (root : rootOp? (flattenOnce e) = none) (other : rootOp? e = none) : FlattensWell e := by
  refine ⟨flattened, root.trans other.symm, ?_, ?_⟩
  · intro op found
    rw [other] at found
    cases found
  · intro op t mem
    rw [operandsForOther (by rw [other]; simp), List.mem_singleton] at mem
    subst mem
    exact ⟨flattened, by rw [root]; simp⟩

theorem FlattensWell.ofChain {e : Expr} {op : AssocOp} (found : rootOp? e = some op)
    (joined : flattenOnce e = .join op (operandsFor op e))
    (many : 2 ≤ (operandsFor op e).length)
    (operands : ∀ t ∈ operandsFor op e, Flattened t ∧ rootOp? t ≠ some op) : FlattensWell e := by
  have flattened : Flattened (flattenOnce e) := by
    rw [joined]
    exact flattenedJoin (fun t mem => (operands t mem).1) fun t mem => (operands t mem).2
  have root : rootOp? (flattenOnce e) = some op := by
    rw [joined]
    exact rootJoin many
  refine ⟨flattened, root.trans found.symm, ?_, ?_⟩
  · intro op' same
    obtain rfl : op = op' := Option.some.inj (found.symm.trans same)
    exact many
  · intro op' t mem
    by_cases same : op = op'
    · subst same
      exact operands t mem
    · have apart : some op ≠ some op' := fun h => same (Option.some.inj h)
      rw [operandsForOther (by rwa [found]), List.mem_singleton] at mem
      subst mem
      exact ⟨flattened, by rwa [root]⟩

theorem flattensWell (e : Expr) : FlattensWell e := by
  induction e using Expr.byArgs with
  | const n => exact .ofOther (by rw [flattenConst]; exact .const n) (by rw [flattenConst]; rfl) rfl
  | var name =>
    exact .ofOther (by rw [flattenVar]; exact .var name) (by rw [flattenVar]; rfl) rfl
  | neg arg ih =>
    exact .ofOther (by rw [flattenNeg]; exact .neg ih.flattened) (by rw [flattenNeg]; rfl) rfl
  | bin op left right ihl ihr =>
    cases kind : op.assoc? with
    | none =>
      refine .ofOther ?_ ?_ kind
      · rw [flattenOther kind]
        exact .bin kind ihl.flattened ihr.flattened
      · rw [flattenOther kind]
        exact kind
    | some assoc =>
      obtain rfl := BinOp.assocIffBin.1 kind
      refine .ofChain kind ?_ ?_ ?_
      · rw [flattenBin, operandsForBin]
      -- Each side offers an operand or more, so the chain of both is a call.
      · have some : ∀ e, FlattensWell e → 1 ≤ (operandsFor assoc e).length := by
          intro e well
          by_cases same : rootOp? e = .some assoc
          · exact Nat.le_of_succ_le (well.many assoc same)
          · rw [operandsForOther same]
            exact Nat.le_refl 1
        have onLeft := some left ihl
        have onRight := some right ihr
        rw [operandsForBin, List.length_append]
        omega
      · intro t mem
        rw [operandsForBin, List.mem_append] at mem
        rcases mem with mem | mem
        · exact ihl.operands assoc t mem
        · exact ihr.operands assoc t mem
  | flat op first second rest ih =>
    refine .ofChain rfl ?_ ?_ ?_
    · rw [flattenFlat, operandsForFlat]
    · have some : ∀ e ∈ first :: second :: rest, 1 ≤ (operandsFor op e).length := by
        intro e mem
        by_cases same : rootOp? e = .some op
        · exact Nat.le_of_succ_le ((ih e mem).many op same)
        · rw [operandsForOther same]
          exact Nat.le_refl 1
      have one := some first (by simp)
      have two := some second (by simp)
      rw [operandsForFlat, List.flatMap_cons, List.flatMap_cons, List.length_append,
        List.length_append]
      omega
    · intro t mem
      rw [operandsForFlat] at mem
      obtain ⟨e, member, offered⟩ := List.mem_flatMap.1 mem
      exact (ih e member).operands op t offered

theorem flattenOnceFlattened (e : Expr) : Flattened (flattenOnce e) := (flattensWell e).flattened

theorem flattenOnceFixed {e : Expr} (flattened : Flattened e) : flattenOnce e = e := by
  induction flattened with
  | const n => exact flattenConst n
  | var name => exact flattenVar name
  | neg _ ih => rw [flattenNeg, ih]
  | bin other _ _ ihl ihr => rw [flattenOther other, ihl, ihr]
  | @flat op first second rest _ apart ih =>
    have offered : (first :: second :: rest).flatMap (operandsFor op) =
        (first :: second :: rest).flatMap fun e => [e] := by
      refine List.flatMap_congr fun e mem => ?_
      rw [operandsForOther (apart e mem), ih e mem]
    rw [flattenFlat, offered, List.flatMap_singleton']
    rfl

theorem unflattenedChain {op : BinOp} {first : Expr} {rest : List Expr}
    (head : Unflattened first) (each : ∀ e ∈ rest, Unflattened e) :
    Unflattened (leftChain op first rest) := by
  induction rest generalizing first with
  | nil => exact head
  | cons next rest ih =>
    exact ih (.bin head (each next (by simp))) fun e mem => each e (by simp [mem])

theorem unflattenOnceUnflattened (e : Expr) : Unflattened (unflattenOnce e) := by
  unfold unflattenOnce
  induction e using Expr.byArgs with
  | const n => rw [bottomUpConst]; exact .const n
  | var name => rw [bottomUpVar]; exact .var name
  | neg arg ih => rw [bottomUpNeg]; exact .neg ih
  | bin op left right ihl ihr => rw [bottomUpBin]; exact .bin ihl ihr
  | flat op first second rest ih =>
    rw [bottomUpFlat, unflattenNode]
    refine unflattenedChain (ih first (by simp)) fun e mem => ?_
    rw [← List.map_cons] at mem
    obtain ⟨t, member, rfl⟩ := List.mem_map.1 mem
    exact ih t (List.mem_cons_of_mem _ member)

theorem unflattenOnceFixed {e : Expr} (plain : Unflattened e) : unflattenOnce e = e := by
  unfold unflattenOnce
  induction plain with
  | const n => rw [bottomUpConst]; rfl
  | var name => rw [bottomUpVar]; rfl
  | neg _ ih => rw [bottomUpNeg, ih]; rfl
  | bin _ _ ihl ihr => rw [bottomUpBin, ihl, ihr]; rfl

theorem unflattenConst (n : Int) : unflattenOnce (.const n) = .const n := by
  rw [unflattenOnce, bottomUpConst]
  rfl

theorem unflattenVar (name : String) : unflattenOnce (.var name) = .var name := by
  rw [unflattenOnce, bottomUpVar]
  rfl

theorem unflattenNeg (arg : Expr) : unflattenOnce (.neg arg) = .neg (unflattenOnce arg) := by
  rw [unflattenOnce, bottomUpNeg]
  rfl

theorem unflattenBin (op : BinOp) (left right : Expr) :
    unflattenOnce (.bin op left right) = .bin op (unflattenOnce left) (unflattenOnce right) := by
  rw [unflattenOnce, bottomUpBin]
  rfl

theorem unflattenFlat (op : AssocOp) (first second : Expr) (rest : List Expr) :
    unflattenOnce (.flat op first second rest) =
      leftChain op.bin (unflattenOnce first) ((second :: rest).map unflattenOnce) := by
  rw [unflattenOnce, bottomUpFlat]
  rfl

theorem chainSnoc (op : BinOp) (first last : Expr) (rest : List Expr) :
    leftChain op first (rest ++ [last]) = .bin op (leftChain op first rest) last := by
  simp [leftChain]

theorem operandsForChain (op : AssocOp) (first : Expr) (rest : List Expr) :
    operandsFor op (leftChain op.bin first rest) = (first :: rest).flatMap (operandsFor op) := by
  induction rest using List.reverseRecOn with
  | nil => simp [leftChain]
  | append_singleton rest last ih => simp [chainSnoc, operandsForBin, ih]

theorem flattenChain (op : AssocOp) (first second : Expr) (rest : List Expr) :
    flattenOnce (leftChain op.bin first (second :: rest)) =
      .join op ((first :: second :: rest).flatMap (operandsFor op)) := by
  obtain ⟨front, last, all⟩ := List.eq_nil_or_concat (second :: rest) |>.resolve_left (by simp)
  rw [← operandsForChain, all, List.concat_eq_append, chainSnoc, flattenBin, operandsForBin]

theorem rootUnflatten (e : Expr) : rootOp? (unflattenOnce e) = rootOp? e := by
  cases e with
  | const n => rw [unflattenConst]
  | var name => rw [unflattenVar]
  | neg arg => rw [unflattenNeg]; rfl
  | bin op left right => rw [unflattenBin]; rfl
  | flat op first second rest =>
    rw [unflattenFlat]
    obtain ⟨front, last, all⟩ :=
      List.eq_nil_or_concat ((second :: rest).map unflattenOnce) |>.resolve_left (by simp)
    rw [all, List.concat_eq_append, chainSnoc]
    exact AssocOp.assocBin op

theorem flattenUnflatten {e : Expr} (flattened : Flattened e) :
    flattenOnce (unflattenOnce e) = e := by
  induction flattened with
  | const n => rw [unflattenConst, flattenConst]
  | var name => rw [unflattenVar, flattenVar]
  | neg _ ih => rw [unflattenNeg, flattenNeg, ih]
  | bin other _ _ ihl ihr => rw [unflattenBin, flattenOther other, ihl, ihr]
  | @flat op first second rest _ apart ih =>
    have offered : ((first :: second :: rest).map unflattenOnce).flatMap (operandsFor op) =
        (first :: second :: rest).flatMap fun e => [e] := by
      rw [List.flatMap_map]
      refine List.flatMap_congr fun e mem => ?_
      rw [operandsForOther (by rw [rootUnflatten]; exact apart e mem), ih e mem]
    rw [unflattenFlat, List.map_cons, flattenChain, ← List.map_cons, ← List.map_cons, offered,
      List.flatMap_singleton']
    rfl

section Once

variable {settings : Settings} {pass : String} {e r : Expr}

theorem fixedPointOnce {step : Expr → Expr} (settles : ∀ e, step (step e) = step e)
    (run : toFixedPoint settings pass (fun e => (pure (step e) : Except Fault Expr)) e = .ok r) :
    r = step e := by
  obtain ⟨first, ⟨⟩, run⟩ := bindOk.1 run
  rcases settleOk run with ⟨_, rfl⟩ | ⟨less, next, _, _, ⟨⟩, run⟩
  · rfl
  · unfold settle at run
    rw [if_pos (settles e).symm] at run
    cases run
    exact settles e

theorem flattenRun (run : flatten settings e = .ok r) : r = flattenOnce e :=
  fixedPointOnce (fun e => flattenOnceFixed (flattenOnceFlattened e)) run

theorem unflattenRun (run : unflatten settings e = .ok r) : r = unflattenOnce e :=
  fixedPointOnce (fun e => unflattenOnceFixed (unflattenOnceUnflattened e)) run

end Once

end Normalize

end ArithEquiv
