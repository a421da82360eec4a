import ArithEquiv.Proofs.Nesting

/-! Comparing trees by what can be seen of them: the kind of each node, what it holds and how many
children it has. The pairs still to be compared wait on a stack, the last children on top. Two trees
that are one object need not be looked at, and those with different digests are not. Neither matters
to the answer, which is whether the trees are the same, however much or little a digest tells. -/
namespace ArithEquiv

inductive Variant where
  | const
  | var
  | neg
  | bin
  | flat
  deriving DecidableEq

inductive Label where
  | number (value : Int)
  | text (chars : String)
  deriving DecidableEq

namespace Node

def variant {α : Type u} : Node α → Variant
  | .const _ => .const
  | .var _ => .var
  | .neg _ => .neg
  | .bin _ _ _ => .bin
  | .flat _ _ => .flat

def label {α : Type u} : Node α → Label
  | .const value => .number value
  | .var name => .text name
  | .neg _ => .text "-"
  | .bin op _ _ => .text op.symbol
  | .flat op _ => .text op.symbol

end Node

theorem BinOp.symbolInjective {op other : BinOp} (same : op.symbol = other.symbol) : op = other := by
  have found := BinOp.ofSymbolSymbol op
  rw [same, BinOp.ofSymbolSymbol] at found
  exact (Option.some.inj found).symm

theorem AssocOp.symbolInjective {op other : AssocOp} (same : op.symbol = other.symbol) :
    op = other := by
  have found := AssocOp.assocBin op
  rw [BinOp.symbolInjective same, AssocOp.assocBin] at found
  exact (Option.some.inj found).symm

namespace Expr

inductive Identical : Expr → Expr → Prop where
  | node {a b : Expr} (variant : a.node.variant = b.node.variant) (label : a.node.label = b.node.label)
      (count : a.children.length = b.children.length)
      (each : ∀ p ∈ a.children.zip b.children, Identical p.1 p.2) : Identical a b

theorem nodeUnique {a b : Expr} (variant : a.node.variant = b.node.variant) (label : a.node.label = b.node.label)
    (children : a.children = b.children) : a = b := by
  cases a with
  | const m =>
    cases b with
    | const n => exact congrArg Expr.const (Label.number.inj label)
    | _ => cases variant
  | var x =>
    cases b with
    | var y => exact congrArg Expr.var (Label.text.inj label)
    | _ => cases variant
  | neg a =>
    cases b with
    | neg b => exact congrArg Expr.neg (List.head_eq_of_cons_eq children)
    | _ => cases variant
  | bin op l r =>
    cases b with
    | bin op' l' r' =>
      obtain rfl := BinOp.symbolInjective (Label.text.inj label)
      cases children
      rfl
    | _ => cases variant
  | flat op x y more =>
    cases b with
    | flat op' x' y' more' =>
      obtain rfl := AssocOp.symbolInjective (Label.text.inj label)
      cases children
      rfl
    | _ => cases variant

theorem Identical.eq {a b : Expr} (identical : Identical a b) : a = b := by
  induction identical with
  | node variant label count _ ih => exact nodeUnique variant label ((eqIffZip count).2 ih)

theorem Identical.refl (e : Expr) : Identical e e := by
  induction e using byChildren with
  | each e ih =>
    refine .node rfl rfl rfl fun p mem => ?_
    obtain same := (eqIffZip rfl).1 (Eq.refl e.children) p mem
    rw [← same]
    exact ih p.1 (List.of_mem_zip mem).1

theorem identicalIff {a b : Expr} : Identical a b ↔ a = b :=
  ⟨Identical.eq, fun same => same ▸ .refl a⟩

/-- Which pairs are seen to be one object when they are on top of the stack. No stack occurs twice in
a comparison, so this allows every way in which the two trees may share their parts. -/
structure Sharing where
  seen : List (Expr × Expr) → Bool
  sound : ∀ {a b : Expr} {pending : List (Expr × Expr)}, seen ((a, b) :: pending) = true → a = b

variable (hash : NodeHash) (sharing : Sharing)

theorem sizeChildren (e : Expr) : sizes e.children < e.size := by
  cases e <;> simp only [children, node, Node.children, sizes, size] <;> omega

theorem sizesPushed (a b : Expr) (pending : List (Expr × Expr)) :
    sizes (((a.children.zip b.children).reverse ++ pending).map Prod.fst) <
      sizes (((a, b) :: pending).map Prod.fst) := by
  have fewer := sizesZipLe a.children b.children
  have inner := sizeChildren a
  have turned : sizes ((a.children.zip b.children).reverse.map Prod.fst) =
      sizes ((a.children.zip b.children).map Prod.fst) := by
    rw [sizesEqSum, sizesEqSum, List.map_reverse, List.map_reverse, List.sum_reverse]
  rw [List.map_append, sizesAppend, turned, List.map_cons, sizes]
  exact Nat.add_lt_add_right (Nat.lt_of_le_of_lt fewer inner) _

def compareAll : List (Expr × Expr) → Bool
  | [] => true
  | (a, b) :: pending =>
    if sharing.seen ((a, b) :: pending) then compareAll pending
    else if a.node.variant ≠ b.node.variant ∨ a.digest hash ≠ b.digest hash then false
    else if a.node.label ≠ b.node.label then false
    else if a.children.length ≠ b.children.length then false
    else compareAll ((a.children.zip b.children).reverse ++ pending)
termination_by pairs => sizes (pairs.map Prod.fst)
decreasing_by
  · have := sizePos a
    simp only [List.map_cons, sizes]
    omega
  · exact sizesPushed a b pending

def compare (a b : Expr) : Bool := compareAll hash sharing [(a, b)]

def sameStructure (a b : Expr) : Bool :=
  if sharing.seen [(a, b)] then true
  else a.digest hash == b.digest hash && compare hash sharing a b

theorem compareAllIff (pairs : List (Expr × Expr)) :
    compareAll hash sharing pairs = true ↔ ∀ p ∈ pairs, p.1 = p.2 := by
  fun_induction compareAll hash sharing pairs with
  | case1 => simp
  | case2 a b pending one ih =>
    rw [ih, List.forall_mem_cons]
    exact (and_iff_right (sharing.sound one)).symm
  | case3 a b pending _ apart =>
    simp only [Bool.false_eq_true, List.forall_mem_cons, false_iff]
    rintro ⟨rfl, -⟩
    exact apart.elim (fun other => other rfl) fun other => other rfl
  | case4 a b pending _ _ apart =>
    simp only [Bool.false_eq_true, List.forall_mem_cons, false_iff]
    rintro ⟨rfl, -⟩
    exact apart rfl
  | case5 a b pending _ _ _ apart =>
    simp only [Bool.false_eq_true, List.forall_mem_cons, false_iff]
    rintro ⟨rfl, -⟩
    exact apart rfl
  | case6 a b pending _ alike label count ih =>
    rw [not_or, not_not, not_not] at alike
    rw [not_not] at label count
    rw [ih, List.forall_mem_append, List.forall_mem_cons]
    refine and_congr_left fun _ => ?_
    simp only [List.mem_reverse]
    rw [← eqIffZip count]
    exact ⟨nodeUnique alike.1 label, congrArg children⟩

theorem compareIff (a b : Expr) : compare hash sharing a b = true ↔ a = b := by
  rw [compare, compareAllIff]
  exact List.forall_mem_singleton

theorem sameStructureIff (a b : Expr) : sameStructure hash sharing a b = true ↔ a = b := by
  unfold sameStructure
  split
  · rename_i one
    exact iff_of_true rfl (sharing.sound one)
  · rw [Bool.and_eq_true, compareIff, beq_iff_eq]
    exact and_iff_right_of_imp (congrArg (digest hash))

theorem comparisonStructural (a b : Expr) :
    (compare hash sharing a b = true ↔ Identical a b) ∧
    (sameStructure hash sharing a b = true ↔ Identical a b) ∧
    (same (digest hash) a b = true ↔ Identical a b) := by
  rw [identicalIff]
  exact ⟨compareIff hash sharing a b, sameStructureIff hash sharing a b, sameIff (digest hash) a b⟩

end Expr

end ArithEquiv
