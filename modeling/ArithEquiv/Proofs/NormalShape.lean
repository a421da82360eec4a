import ArithEquiv.Proofs.NormalForms

/-! The shape of a normal form, node by node. A chain of a flat call has the operands of the call, so
what is known of the call holds of the chain and of every shorter chain inside it. -/
namespace ArithEquiv

namespace Expr

inductive Part : Expr → Expr → Prop where
  | whole (e : Expr) : Part e e
  | inside {t child e : Expr} (member : child ∈ e.children) (part : Part t child) : Part t e

def leaves (op : BinOp) : Expr → List Expr
  | .bin inner left right =>
    if inner = op then leaves op left ++ leaves op right else [.bin inner left right]
  | e => [e]

def binOp? : Expr → Option BinOp
  | .bin op _ _ => some op
  | _ => none

theorem partConst {n : Int} {t : Expr} : Part t (.const n) ↔ t = .const n := by
  constructor
  · rintro (_ | ⟨member, _⟩)
    · rfl
    · cases member
  · rintro rfl
    exact .whole _

theorem partVar {name : String} {t : Expr} : Part t (.var name) ↔ t = .var name := by
  constructor
  · rintro (_ | ⟨member, _⟩)
    · rfl
    · cases member
  · rintro rfl
    exact .whole _

theorem partNeg {arg t : Expr} : Part t (.neg arg) ↔ t = .neg arg ∨ Part t arg := by
  constructor
  · rintro (_ | ⟨member, part⟩)
    · exact .inl rfl
    · rw [List.mem_singleton.1 member] at part
      exact .inr part
  · rintro (rfl | part)
    · exact .whole _
    · exact .inside (List.mem_singleton_self arg) part

theorem partBin {op : BinOp} {left right t : Expr} :
    Part t (.bin op left right) ↔ t = .bin op left right ∨ Part t left ∨ Part t right := by
  constructor
  · rintro (_ | ⟨member, part⟩)
    · exact .inl rfl
    · simp only [children, node, Node.children, List.mem_cons, List.not_mem_nil, or_false] at member
      rcases member with rfl | rfl
      · exact .inr (.inl part)
      · exact .inr (.inr part)
  · rintro (rfl | part | part)
    · exact .whole _
    · exact .inside (e := .bin op left right) List.mem_cons_self part
    · exact .inside (e := .bin op left right) (List.mem_cons_of_mem _ List.mem_cons_self) part

end Expr

namespace Normalize

open ArithEquiv.Expr

structure NodeShape (settings : Settings) (t : Expr) : Prop where
  notFlat : ∀ op first second rest, t ≠ .flat op first second rest
  notSub : binOp? t ≠ some .sub
  negation : ∀ arg, t = .neg arg →
    binOp? arg ≠ some .add ∧ (∀ inner, arg ≠ .neg inner) ∧ ∀ n, arg ≠ .const n
  sum : ∀ left right, t = .bin .add left right → binOp? right ≠ some .add
  product : ∀ left right, t = .bin .mul left right →
    binOp? left ≠ some .add ∧ binOp? right ≠ some .add ∧ binOp? right ≠ some .mul
  quotient : ∀ left right, t = .bin .div left right → binOp? left ≠ some .add
  factors : binOp? t = some .mul → ∀ e ∈ t.leaves .mul, (∀ arg, e ≠ .neg arg) ∧
    ∀ n, e = .const n → 2 ≤ n
  terms : binOp? t = some .add → .const 0 ∉ t.leaves .add
  lone : settings.constants = .fold → ∀ op : AssocOp, binOp? t = some op.bin →
    (constants (t.leaves op.bin)).card ≤ 1

section Chains

variable {op : BinOp} {first last t : Expr} {rest : List Expr}

theorem leavesOther {e : Expr} (other : binOp? e ≠ some op) : e.leaves op = [e] := by
  cases e with
  | bin inner left right => rw [leaves, if_neg fun same => other (congrArg some same)]
  | _ => rfl

theorem leavesChain (apart : ∀ e ∈ first :: rest, binOp? e ≠ some op) :
    (leftChain op first rest).leaves op = first :: rest := by
  induction rest using List.reverseRecOn with
  | nil => exact leavesOther (apart first (by simp))
  | append_singleton rest last ih =>
    rw [chainSnoc, leaves, if_pos rfl, ih fun e mem => apart e (by simp at mem ⊢; tauto),
      leavesOther (apart last (by simp))]
    rfl

theorem partChain (part : Part t (leftChain op first rest)) :
    (∃ front last, front ++ [last] <+: rest ∧ t = leftChain op first (front ++ [last])) ∨
      ∃ e ∈ first :: rest, Part t e := by
  induction rest using List.reverseRecOn with
  | nil => exact .inr ⟨first, by simp, part⟩
  | append_singleton rest last ih =>
    rw [chainSnoc, partBin, ← chainSnoc] at part
    rcases part with rfl | part | part
    · exact .inl ⟨rest, last, List.prefix_rfl, rfl⟩
    · rcases ih part with ⟨front, last', pre, same⟩ | ⟨e, mem, inside⟩
      · exact .inl ⟨front, last', pre.trans (List.prefix_append _ _), same⟩
      · exact .inr ⟨e, by simp at mem ⊢; tauto, inside⟩
    · exact .inr ⟨last, by simp, part⟩

end Chains

section Unflattening

variable {settings : Settings} {e t : Expr}

theorem unflattenKind (e : Expr) : kind (unflattenOnce e) = kind e := by
  rw [← @outlineKind .free, ← @outlineKind .free e, outline,
    valueUnflattenOnce, outline]

theorem notOfKind {op : BinOp} (differs : kind e ≠ kindOfBin op) :
    binOp? (unflattenOnce e) ≠ some op := by
  intro found
  rw [← unflattenKind] at differs
  cases unflattened : unflattenOnce e with
  | bin inner left right =>
    rw [unflattened] at found differs
    cases found
    exact differs rfl
  | _ => rw [unflattened] at found; cases found

theorem constOfUnflatten {n : Int} (same : unflattenOnce e = .const n) : e = .const n := by
  have found : kind e = .constant := by rw [← unflattenKind, same]; rfl
  obtain ⟨m, rfl⟩ := constantKind found
  rwa [unflattenConst] at same

theorem constantsUnflatten (es : List Expr) : constants (es.map unflattenOnce) = constants es := by
  have each : (const? ∘ unflattenOnce) = const? := by
    funext e
    rcases constOrOther e with ⟨n, rfl⟩ | other
    · simp [unflattenConst]
    · rcases constOrOther (unflattenOnce e) with ⟨n, same⟩ | other'
      · rw [constOfUnflatten same] at other
        cases other
      · simp [other, other']
  rw [constants, constants, List.filterMap_map, each]

theorem leafShape (leaf : (∃ n, t = .const n) ∨ ∃ name, t = .var name) : NodeShape settings t := by
  rcases leaf with ⟨n, rfl⟩ | ⟨name, rfl⟩ <;> constructor <;> simp [binOp?]

theorem negationShape {arg : Expr} (solid : kind arg = .atom ∨ kind arg = .product) :
    NodeShape settings (.neg (unflattenOnce arg)) := by
  have kept := unflattenKind arg
  constructor <;> simp only [binOp?, reduceCtorEq, not_false_eq_true, ne_eq, implies_true,
    false_implies, Expr.neg.injEq, forall_eq']
  refine ⟨notOfKind ?_, fun inner same => ?_, fun n same => ?_⟩
  · rcases solid with h | h <;> rw [h] <;> decide
  · rw [same] at kept
    rcases solid with h | h <;> cases kept.trans h
  · rw [same] at kept
    rcases solid with h | h <;> cases kept.trans h

theorem quotientShape {left right : Expr} (numerator : kind left ≠ .sum) :
    NodeShape settings (.bin .div (unflattenOnce left) right) := by
  constructor <;> simp only [binOp?, reduceCtorEq, not_false_eq_true, ne_eq, implies_true,
    false_implies, Expr.bin.injEq, and_imp, false_and, true_and, Option.some.injEq]
  · rintro _ _ rfl rfl
    exact notOfKind numerator
  · intro _ op same
    cases op <;> cases same

end Unflattening

section Calls

variable {settings : Settings} {first second last t : Expr} {rest front : List Expr}

theorem chainLeaves {op : AssocOp} (apart : ∀ e ∈ first :: second :: rest, kind e ≠ kindOfBin op.bin)
    (pre : front ++ [last] <+: (second :: rest).map unflattenOnce) :
    (leftChain op.bin (unflattenOnce first) (front ++ [last])).leaves op.bin =
        unflattenOnce first :: (front ++ [last]) ∧
      (unflattenOnce first :: (front ++ [last])).Sublist
        ((first :: second :: rest).map unflattenOnce) := by
  have part : (unflattenOnce first :: (front ++ [last])).Sublist
      ((first :: second :: rest).map unflattenOnce) :=
    (List.cons_prefix_cons.2 ⟨rfl, pre⟩).sublist
  refine ⟨leavesChain fun e mem => ?_, part⟩
  obtain ⟨u, member, rfl⟩ := List.mem_map.1 (part.subset mem)
  exact notOfKind (apart u member)

theorem productShape (factors : ∀ e ∈ first :: second :: rest, kind e = .constant ∨ kind e = .atom)
    (obeyed : Rules.signed.product (constants (first :: second :: rest)))
    (pre : front ++ [last] <+: (second :: rest).map unflattenOnce) :
    NodeShape settings (leftChain .mul (unflattenOnce first) (front ++ [last])) := by
  have other : ∀ e ∈ first :: second :: rest, kind e ≠ .product ∧ kind e ≠ .sum := by
    intro e mem
    rcases factors e mem with h | h <;> rw [h] <;> decide
  obtain ⟨all, part⟩ := @chainLeaves _ _ _ _ _ .mul (fun e mem => (other e mem).1) pre
  have inside : ∀ e ∈ unflattenOnce first :: (front ++ [last]), ∃ u ∈ first :: second :: rest,
      unflattenOnce u = e := fun _ mem => List.mem_map.1 (part.subset mem)
  have notAdd : ∀ e ∈ unflattenOnce first :: (front ++ [last]), binOp? e ≠ some .add ∧
      binOp? e ≠ some .mul := by
    intro e mem
    obtain ⟨u, member, rfl⟩ := inside e mem
    exact ⟨notOfKind (other u member).2, notOfKind (other u member).1⟩
  have left : binOp? (leftChain .mul (unflattenOnce first) front) ≠ some .add := by
    rcases front.eq_nil_or_concat with rfl | ⟨before, middle, rfl⟩
    · exact (notAdd _ List.mem_cons_self).1
    · simp [chainSnoc, binOp?]
  have few : (constants (unflattenOnce first :: (front ++ [last]))).card ≤ 1 := by
    refine (Multiset.card_le_card (constantsLe part)).trans ?_
    rw [constantsUnflatten]
    exact obeyed.1
  change (leftChain .mul _ _).leaves .mul = _ at all
  rw [chainSnoc] at all ⊢
  have right := notAdd last (by simp)
  constructor <;> simp only [binOp?, reduceCtorEq, not_false_eq_true, ne_eq, implies_true,
    false_implies, Expr.bin.injEq, and_imp, false_and, true_and, Option.some.injEq, all]
  · rintro _ _ rfl rfl
    exact ⟨left, right⟩
  · intro _ e mem
    obtain ⟨u, member, rfl⟩ := inside e mem
    have kept := unflattenKind u
    refine ⟨fun arg same => ?_, fun n same => ?_⟩
    · rw [same] at kept
      rcases factors u member with h | h <;> cases kept.trans h
    · rw [constOfUnflatten same] at member
      exact obeyed.2 n (constantsMem.2 member)
  · rintro _ op same
    cases op with
    | mul => exact all ▸ few
    | add => cases same

theorem sumShape (terms : ∀ e ∈ first :: second :: rest, kind e ≠ .sum)
    (obeyed : (Rules.normal settings).sum (constants (first :: second :: rest)))
    (pre : front ++ [last] <+: (second :: rest).map unflattenOnce) :
    NodeShape settings (leftChain .add (unflattenOnce first) (front ++ [last])) := by
  obtain ⟨all, part⟩ := @chainLeaves _ _ _ _ _ .add terms pre
  have inside : ∀ e ∈ unflattenOnce first :: (front ++ [last]), ∃ u ∈ first :: second :: rest,
      unflattenOnce u = e := fun e mem => List.mem_map.1 (part.subset mem)
  have right : binOp? last ≠ some .add := by
    obtain ⟨u, member, rfl⟩ := inside last (by simp)
    exact notOfKind (terms u member)
  have few : settings.constants = .fold →
      (constants (unflattenOnce first :: (front ++ [last]))).card ≤ 1 := by
    intro fold
    refine (Multiset.card_le_card (constantsLe part)).trans ?_
    rw [constantsUnflatten]
    exact obeyed.2 fold
  change (leftChain .add _ _).leaves .add = _ at all
  rw [chainSnoc] at all ⊢
  constructor <;> simp only [binOp?, reduceCtorEq, not_false_eq_true, ne_eq, implies_true,
    false_implies, Expr.bin.injEq, and_imp, false_and, true_and, Option.some.injEq, all]
  · rintro _ _ rfl rfl
    exact right
  · intro _ mem
    obtain ⟨u, member, same⟩ := inside _ mem
    rw [constOfUnflatten same] at member
    exact obeyed.1 (constantsMem.2 member)
  · rintro fold op same
    cases op with
    | add => exact all ▸ few fold
    | mul => cases same

theorem partShape {e : Expr} (shaped : Shaped (.normal settings) e)
    (part : Part t (unflattenOnce e)) : NodeShape settings t := by
  induction shaped generalizing t with
  | const n =>
    rw [unflattenConst, partConst] at part
    exact leafShape (.inl ⟨n, part⟩)
  | var name =>
    rw [unflattenVar, partVar] at part
    exact leafShape (.inr ⟨name, part⟩)
  | neg _ solid _ ih =>
    rw [unflattenNeg, partNeg] at part
    rcases part with rfl | part
    · exact negationShape solid
    · exact ih part
  | div numerator _ _ ihl ihr =>
    rw [unflattenBin, partBin] at part
    rcases part with rfl | part | part
    · exact quotientShape numerator
    · exact ihl part
    · exact ihr part
  | product factors obeyed _ _ ih =>
    rw [unflattenFlat] at part
    rcases partChain part with ⟨front, last, pre, rfl⟩ | ⟨u, mem, inside⟩
    · exact productShape factors obeyed pre
    · rw [← List.map_cons] at mem
      obtain ⟨e, member, rfl⟩ := List.mem_map.1 mem
      exact ih e member inside
  | sum terms obeyed _ ih =>
    rw [unflattenFlat] at part
    rcases partChain part with ⟨front, last, pre, rfl⟩ | ⟨u, mem, inside⟩
    · exact sumShape terms obeyed pre
    · rw [← List.map_cons] at mem
      obtain ⟨e, member, rfl⟩ := List.mem_map.1 mem
      exact ih e member inside

end Calls

structure NormalShape (settings : Settings) (r : Expr) : Prop where
  binary : ∀ t, Part t r → (∀ op first second rest, t ≠ .flat op first second rest) ∧
    ∀ left right, t ≠ .bin .sub left right
  sums : (∀ arg, Part (.neg arg) r → binOp? arg ≠ some .add) ∧
    (∀ left right, Part (.bin .add left right) r → binOp? right ≠ some .add) ∧
    (∀ left right, Part (.bin .mul left right) r →
      binOp? left ≠ some .add ∧ binOp? right ≠ some .add) ∧
    ∀ left right, Part (.bin .div left right) r → binOp? left ≠ some .add
  products : ∀ left right, Part (.bin .mul left right) r → binOp? right ≠ some .mul ∧
    ∀ arg, .neg arg ∉ (Expr.bin .mul left right).leaves .mul
  negations : ∀ arg, Part (.neg arg) r → (∀ inner, arg ≠ .neg inner) ∧ ∀ n, arg ≠ .const n
  factors : ∀ left right, Part (.bin .mul left right) r →
    ∀ n, .const n ∈ (Expr.bin .mul left right).leaves .mul → 2 ≤ n
  terms : ∀ left right, Part (.bin .add left right) r →
    .const 0 ∉ (Expr.bin .add left right).leaves .add
  lone : settings.constants = .fold → ∀ (op : AssocOp) left right,
    Part (.bin op.bin left right) r →
      (((Expr.bin op.bin left right).leaves op.bin).filterMap const?).length ≤ 1
  ordered : ∀ op first second rest, Part (.flat op first second rest) (flattenOnce r) →
    (first :: second :: rest).Pairwise fun a b =>
      (a.digest settings.hash).le (b.digest settings.hash)
  flattens : ∀ limits f, flatten limits r = .ok f → f = flattenOnce r

theorem inOrderParts {hash : NodeHash} {e : Expr} (ordered : ∀ op, AllInOrder hash op e)
    {op : AssocOp} {first second : Expr} {rest : List Expr}
    (part : Part (.flat op first second rest) e) :
    (first :: second :: rest).Pairwise fun a b => before hash a b := by
  induction part with
  | whole =>
    cases ordered op with
    | flat sorted _ => exact sorted trivial rfl
  | @inside child e member _ ih =>
    refine ih fun op => ?_
    cases ordered op with
    | const => cases member
    | var => cases member
    | neg inner => rwa [List.mem_singleton.1 member]
    | bin _ onLeft onRight =>
      simp only [children, node, Node.children, List.mem_cons, List.not_mem_nil, or_false] at member
      rcases member with rfl | rfl
      · exact onLeft
      · exact onRight
    | flat _ each => exact each child member

theorem normalShaped {settings : Settings} {e r : Expr} {journal : Journal}
    (run : (normalForm settings e journal).1 = .ok r) : NormalShape settings r := by
  rw [normalFormGives settings e journal] at run
  obtain ⟨start, terms, left, combined, o, course⟩ := courseOf run
  have settled := orderOperandsSettled course.orders (shapedFlattened course.normal)
  have shaped : Shaped (.normal settings) o :=
    course.normal.rearranged settled.flattened (orderOperandsRearranged course.orders).symm
  obtain rfl := course.result
  have node : ∀ {t}, Part t (unflattenOnce o) → NodeShape settings t := partShape shaped
  refine ⟨?_, ⟨?_, ?_, ?_, ?_⟩, ?_, ?_, ?_, ?_, ?_, ?_, fun _ _ => flattenRun⟩
  · exact fun t part => ⟨(node part).notFlat, fun left right same => (node part).notSub (by rw [same]; rfl)⟩
  · exact fun arg part => ((node part).negation arg rfl).1
  · exact fun left right part => (node part).sum left right rfl
  · exact fun left right part => ((node part).product left right rfl).imp_right And.left
  · exact fun left right part => (node part).quotient left right rfl
  · refine fun left right part => ⟨((node part).product left right rfl).2.2, fun arg mem => ?_⟩
    exact ((node part).factors rfl _ mem).1 arg rfl
  · exact fun arg part => ((node part).negation arg rfl).2
  · exact fun left right part n mem => ((node part).factors rfl _ mem).2 n rfl
  · exact fun left right part => (node part).terms rfl
  · exact fun fold op left right part => (node part).lone fold op rfl
  · intro op first second rest part
    rw [flattenUnflatten settled.flattened] at part
    exact inOrderParts settled.ordered part

def quotientByNothing : Expr := .bin .div (.bin .sub (.var "x") (.var "y")) (.const 0)

def quotientTaken : Expr :=
  .bin .add (.bin .div (.neg (.var "y")) (.const 0)) (.bin .div (.var "x") (.const 0))

theorem normalShapedQuotient : (normalForm {} quotientByNothing {}).1 = .ok quotientTaken ∧
    NormalShape {} quotientTaken := by
  have run : (normalForm {} quotientByNothing {}).1 = .ok quotientTaken := by
    rw [Node.digestEq]
    decide +kernel
  exact ⟨run, normalShaped run⟩

end Normalize

end ArithEquiv
