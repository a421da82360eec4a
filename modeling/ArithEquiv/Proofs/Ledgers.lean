import ArithEquiv.Proofs.Stages
import Mathlib.Data.Multiset.Bind

/-! The terms of a tree once everything is multiplied out, each by its factors. Constants are factors
like any other, and a quotient is one factor of each term of its numerator. Distribution keeps this
account of a tree, and of a tree that is multiplied out it keeps all but order and grouping: the
tree without its order can be read off it. -/
namespace ArithEquiv

abbrev Ledger := Multiset (Multiset ℕ)

namespace Unordered

instance : Nonempty Unordered := ⟨.const 0⟩

noncomputable def decode : ℕ → Unordered := Function.invFun code

theorem decodeCode (x : Unordered) : decode x.code = x := Function.leftInverse_invFun codeInjective x

end Unordered

namespace Ledger

open Unordered

noncomputable def term (factors : Multiset ℕ) : Unordered :=
  if factors.card = 1 then decode factors.sum else .product factors

noncomputable def tree (x : Ledger) : Unordered :=
  if x.card = 1 then term x.sum else .sum (x.map fun m => (term m).code)

theorem termSingle (x : Unordered) : term {x.code} = x := by
  rw [term, if_pos (Multiset.card_singleton _), Multiset.sum_singleton, decodeCode]

theorem termMany {factors : Multiset ℕ} (many : 2 ≤ factors.card) : term factors = .product factors :=
  if_neg (by omega)

theorem treeSingle (factors : Multiset ℕ) : tree {factors} = term factors := by
  rw [tree, if_pos (Multiset.card_singleton _), Multiset.sum_singleton]

theorem treeMany {x : Ledger} (many : 2 ≤ x.card) :
    tree x = .sum (x.map fun m => (term m).code) :=
  if_neg (by omega)

def cross (x y : Ledger) : Ledger := x.bind fun m => y.map fun n => m + n

theorem crossComm (x y : Ledger) : cross x y = cross y x := by
  rw [cross, cross, Multiset.bind_map_comm]
  simp only [add_comm]

theorem crossAssoc (x y z : Ledger) : cross (cross x y) z = cross x (cross y z) := by
  simp only [cross, Multiset.bind_assoc, Multiset.bind_map, Multiset.map_bind, Multiset.map_map,
    Function.comp_def, add_assoc]

theorem crossAdd (x y z : Ledger) : cross x (y + z) = cross x y + cross x z := by
  simp only [cross, Multiset.map_add, Multiset.bind_add]

noncomputable def divide (x y : Ledger) : Ledger :=
  x.map fun m => {code (.div (term m).code (tree y).code)}

/- Signs are not told apart: the trees this is for have neither negations nor differences. -/
noncomputable def interpretation : Interpretation Ledger where
  const n := {{code (.const n)}}
  var name := {{code (.var name)}}
  neg x := x
  bin
    | .add => fun x y => x + y
    | .sub => fun x y => x + y
    | .mul => cross
    | .div => divide
  assoc
    | .add => add_assoc
    | .mul => crossAssoc

theorem commutative : interpretation.Commutative
  | .add => add_comm
  | .mul => crossComm

theorem additiveLinear {i : Interpretation Ledger} (bins : i.bin = interpretation.bin)
    {F : Ledger → Ledger} (add : ∀ x y, F (x + y) = F x + F y) (e : Expr) :
    (Normalize.Summands.ofExpr e).Linear i F := by
  cases split : Normalize.Summands.ofExpr e with
  | single term => trivial
  | chain op first rest =>
    rw [Normalize.Summands.Linear, bins]
    rcases Normalize.ofExprOp split with rfl | rfl
    · exact add
    · exact add

end Ledger

namespace Expr

noncomputable def ledger (e : Expr) : Ledger := e.value Ledger.interpretation

end Expr

namespace Normalize

open ArithEquiv.Expr Ledger

section Distribution

variable {settings : Settings} {e r : Expr}

theorem distributeNodeLedger {i : Interpretation Ledger} (bins : i.bin = interpretation.bin)
    (run : distributeNode settings e = .ok r) : e.value i = r.value i := by
  have turned : ∀ k x y, cross (x + y) k = cross x k + cross y k := by
    intro k x y
    rw [crossComm, crossAdd, crossComm k, crossComm k]
  refine distributeNodeKept run (fun k t => additiveLinear bins ?_ t)
    (fun k t => additiveLinear bins ?_ t) fun n d _ _ z => additiveLinear bins ?_ n
  · rw [bins]
    exact crossAdd k
  · rw [bins]
    exact turned k
  · rw [bins]
    exact fun x y => Multiset.map_add _ x y

theorem distributedLedgerIn {i : Interpretation Ledger} (bins : i.bin = interpretation.bin)
    (expand : settings.constants = .expand) (run : distributed settings e = .ok r) :
    e.value i = r.value i := by
  refine distributedRelated i.compatibleEq (fun op x y => ?_) expand (distributeNodeLedger bins) run
  rw [bins]
  exact Ledger.commutative op x y

theorem distributedLedger (expand : settings.constants = .expand)
    (run : distributed settings e = .ok r) : e.ledger = r.ledger :=
  distributedLedgerIn rfl expand run

end Distribution

section Reading

variable {rules : Rules} {e : Expr}

structure ReadOff (e : Expr) : Prop where
  term : kind e ≠ .sum → e.ledger = {e.unordered.parts .mul} ∧
    Ledger.term (e.unordered.parts .mul) = e.unordered
  whole : e.ledger.tree = e.unordered

theorem ReadOff.ofTerm (terms : e.ledger = {e.unordered.parts .mul} ∧
    Ledger.term (e.unordered.parts .mul) = e.unordered) : ReadOff e :=
  ⟨fun _ => terms, by rw [terms.1, treeSingle, terms.2]⟩

theorem ReadOff.ofFactor (parts : e.unordered.parts .mul = {e.unordered.code})
    (ledger : e.ledger = {{e.unordered.code}}) : ReadOff e :=
  .ofTerm ⟨by rw [ledger, parts], by rw [parts, termSingle]⟩

theorem crossChain (m : Multiset ℕ) (ms : List (Multiset ℕ)) :
    Ledger.interpretation.chain .mul {m} (ms.map fun m => {m}) = {m + ms.sum} := by
  induction ms generalizing m with
  | nil => exact congrArg _ (add_zero m).symm
  | cons n ms ih =>
    have joined : cross {m} {n} = {m + n} := by
      rw [cross, Multiset.singleton_bind, Multiset.map_singleton]
    refine (congrArg (fun x => Ledger.interpretation.chain .mul x _) joined).trans ?_
    rw [ih, List.sum_cons, add_assoc]

theorem ledgerSum (first second : Expr) (rest : List Expr) :
    (Expr.flat .add first second rest).ledger = ((first :: second :: rest).map ledger).sum := by
  have chains : ∀ (xs : List Ledger) (x : Ledger),
      Ledger.interpretation.chain .add x xs = x + xs.sum := by
    intro xs
    induction xs with
    | nil => exact fun x => (add_zero x).symm
    | cons y xs ih => exact fun x => (ih (x + y)).trans (by rw [List.sum_cons, add_assoc])
  rw [ledger, valueFlat, chains, List.map_cons, List.sum_cons]
  rfl

theorem productReadOff {first second : Expr} {rest : List Expr}
    (flattened : Flattened (.flat .mul first second rest))
    (factors : ∀ e ∈ first :: second :: rest, kind e = .constant ∨ kind e = .atom)
    (each : ∀ e ∈ first :: second :: rest, ReadOff e) : ReadOff (.flat .mul first second rest) := by
  have terms : ∀ e ∈ first :: second :: rest, e.ledger = {e.unordered.parts .mul} := by
    intro e mem
    refine ((each e mem).term fun sum => ?_).1
    rcases factors e mem with found | found <;> cases found.symm.trans sum
  have parts : (Expr.flat .mul first second rest).unordered.parts .mul =
      ((first :: second :: rest).map fun e => e.unordered.parts .mul).sum := by
    rw [unorderedFlat, Unordered.partsGather]
  refine .ofTerm ⟨?_, ?_⟩
  · have others : (second :: rest).map ledger =
        ((second :: rest).map fun e => e.unordered.parts .mul).map fun m => {m} := by
      rw [List.map_map]
      exact List.map_congr_left fun e mem => terms e (List.mem_cons_of_mem _ mem)
    rw [parts, ledger, valueFlat, ← ledger, terms first (by simp)]
    refine (congrArg _ others).trans ((crossChain _ _).trans ?_)
    rw [← List.sum_cons]
    rfl
  · cases flattened with
    | flat flattened apart =>
      rw [parts, unorderedFlat, codesOfOperands flattened apart]
      exact termMany (by simp)

theorem ledgerTerms {first second : Expr} {rest : List Expr}
    (terms : ∀ e ∈ first :: second :: rest, kind e ≠ .sum)
    (each : ∀ e ∈ first :: second :: rest, ReadOff e) :
    (Expr.flat .add first second rest).ledger =
      ((first :: second :: rest).map fun e => e.unordered.parts .mul : List (Multiset ℕ)) := by
  have singles : ∀ es : List Expr, (∀ e ∈ es, e.ledger = {e.unordered.parts .mul}) →
      (es.map ledger).sum = (es.map fun e => e.unordered.parts .mul : List (Multiset ℕ)) := by
    intro es
    induction es with
    | nil => exact fun _ => rfl
    | cons e rest ih =>
      intro single
      rw [List.map_cons, List.sum_cons, single e (by simp), ih fun t mem => single t (by simp [mem])]
      rfl
  rw [ledgerSum, singles _ fun e mem => ((each e mem).term (terms e mem)).1]

theorem sumReadOff {first second : Expr} {rest : List Expr}
    (flattened : Flattened (.flat .add first second rest))
    (terms : ∀ e ∈ first :: second :: rest, kind e ≠ .sum)
    (each : ∀ e ∈ first :: second :: rest, ReadOff e) : ReadOff (.flat .add first second rest) := by
  refine ⟨fun term => absurd rfl term, ?_⟩
  cases flattened with
  | flat flattened apart =>
    rw [ledgerTerms terms each, unorderedFlat, codesOfOperands flattened apart, treeMany (by simp),
      Multiset.map_coe, List.map_map]
    refine congrArg Unordered.sum (congrArg _ (List.map_congr_left fun e mem => ?_))
    exact congrArg Unordered.code ((each e mem).term (terms e mem)).2

theorem shapedReadOff (noNegation : ¬rules.negation) (shaped : Shaped rules e) : ReadOff e := by
  have flattened := shapedFlattened shaped
  induction shaped with
  | const n => exact .ofFactor rfl rfl
  | var name => exact .ofFactor rfl rfl
  | neg allowed _ _ _ => exact absurd allowed noNegation
  | @div left right numerator onLeft onRight ihl ihr =>
    have left' := (ihl (shapedFlattened onLeft)).term numerator
    have right' := (ihr (shapedFlattened onRight)).whole
    refine .ofFactor rfl ?_
    show divide left.ledger right.ledger = _
    rw [left'.1, divide, Multiset.map_singleton, left'.2, right']
    rfl
  | product factors _ _ each ih =>
    exact productReadOff flattened factors fun e mem => ih e mem (shapedFlattened (each e mem))
  | sum terms _ each ih =>
    exact sumReadOff flattened terms fun e mem => ih e mem (shapedFlattened (each e mem))

end Reading

end Normalize

end ArithEquiv
