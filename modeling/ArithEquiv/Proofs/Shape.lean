import ArithEquiv.Proofs.MultipliedOut
import Mathlib.Algebra.Order.Group.Multiset

/-! Shapes of flattened trees: factors are no sums, numerators are no sums, and the constants of
every product and every sum obey given rules. The same can be said of any tree by an interpretation
that sums up a tree in its kind and the constants it adds to a product or a sum around it, so a
shape does not depend on order and grouping. -/
namespace ArithEquiv.Normalize

open ArithEquiv.Expr

inductive Kind where
  | constant
  | atom
  | product
  | negation
  | sum
  deriving DecidableEq

def Kind.isFactor : Kind → Prop
  | .constant | .atom | .product => True
  | .negation | .sum => False

def kindOfBin : BinOp → Kind
  | .add => .sum
  | .sub => .sum
  | .mul => .product
  | .div => .atom

def kind : Expr → Kind
  | .const _ => .constant
  | .var _ => .atom
  | .neg _ => .negation
  | .bin op _ _ => kindOfBin op
  | .flat op _ _ _ => kindOfBin op.bin

theorem kindOfRoot {e : Expr} {op : AssocOp} (root : rootOp? e = some op) :
    kind e = kindOfBin op.bin := by
  cases e with
  | bin inner _ _ =>
    rw [BinOp.assocIffBin.1 root]
    rfl
  | flat inner _ _ _ =>
    cases root
    rfl
  | _ => cases root

theorem constantKind {e : Expr} (found : kind e = .constant) : ∃ n, e = .const n := by
  cases e with
  | const n => exact ⟨n, rfl⟩
  | bin op _ _ => cases op <;> cases found
  | flat op _ _ _ => cases op <;> cases found
  | _ => cases found

theorem atomKind {e : Expr} (found : kind e = .atom) :
    (∃ name, e = .var name) ∨ ∃ left right, e = .bin .div left right := by
  cases e with
  | var name => exact .inl ⟨name, rfl⟩
  | bin op left right =>
    cases op with
    | div => exact .inr ⟨left, right, rfl⟩
    | _ => cases found
  | flat op _ _ _ => cases op <;> cases found
  | _ => cases found

theorem productKind {e : Expr} (found : kind e = .product) : rootOp? e = some .mul := by
  cases e with
  | bin op _ _ =>
    cases op with
    | mul => rfl
    | _ => cases found
  | flat op _ _ _ =>
    cases op with
    | mul => rfl
    | add => cases found
  | _ => cases found

theorem sumKind {e : Expr} (found : kind e = .sum) :
    rootOp? e = some .add ∨ ∃ left right, e = .bin .sub left right := by
  cases e with
  | bin op left right =>
    cases op with
    | add => exact .inl rfl
    | sub => exact .inr ⟨left, right, rfl⟩
    | _ => cases found
  | flat op _ _ _ =>
    cases op with
    | add => exact .inl rfl
    | mul => cases found
  | _ => cases found

/- What is asked of the constants in each product and each sum, whether negations are allowed, and
whether a product must have a factor that is no constant. -/
structure Rules where
  product : Multiset Int → Prop
  sum : Multiset Int → Prop
  negation : Prop
  solid : Prop
  productPart : ∀ {m n : Multiset Int}, m ≤ n → product n → product m
  sumPart : ∀ {m n : Multiset Int}, m ≤ n → sum n → sum m

def constants (es : List Expr) : Multiset Int := (es.filterMap Expr.const? : List Int)

inductive Shaped (rules : Rules) : Expr → Prop where
  | const (n : Int) : Shaped rules (.const n)
  | var (name : String) : Shaped rules (.var name)
  | neg {arg : Expr} (allowed : rules.negation) (solid : kind arg = .atom ∨ kind arg = .product)
      (inner : Shaped rules arg) : Shaped rules (.neg arg)
  | div {left right : Expr} (numerator : kind left ≠ .sum) (onLeft : Shaped rules left)
      (onRight : Shaped rules right) : Shaped rules (.bin .div left right)
  | product {first second : Expr} {rest : List Expr}
      (factors : ∀ e ∈ first :: second :: rest, kind e = .constant ∨ kind e = .atom)
      (obeyed : rules.product (constants (first :: second :: rest)))
      (solid : rules.solid → ∃ e ∈ first :: second :: rest, kind e = .atom)
      (each : ∀ e ∈ first :: second :: rest, Shaped rules e) :
      Shaped rules (.flat .mul first second rest)
  | sum {first second : Expr} {rest : List Expr}
      (terms : ∀ e ∈ first :: second :: rest, kind e ≠ .sum)
      (obeyed : rules.sum (constants (first :: second :: rest)))
      (each : ∀ e ∈ first :: second :: rest, Shaped rules e) :
      Shaped rules (.flat .add first second rest)

structure Outline where
  kind : Kind
  factors : Multiset Int
  addends : Multiset Int
  solid : Prop
  sound : Prop

namespace Outline

variable (rules : Rules)

def Closed (p : Outline) : Prop := rules.solid → p.kind = .product → p.solid

def product (ps : List Outline) : Outline where
  kind := .product
  factors := (ps.map factors).sum
  addends := 0
  solid := ∃ p ∈ ps, p.solid
  sound := (∀ p ∈ ps, p.sound ∧ p.kind.isFactor) ∧ rules.product (ps.map factors).sum

def sum (ps : List Outline) : Outline where
  kind := .sum
  factors := 0
  addends := (ps.map addends).sum
  solid := True
  sound := (∀ p ∈ ps, p.sound ∧ p.Closed rules) ∧ rules.sum (ps.map addends).sum

def gather : AssocOp → List Outline → Outline
  | .add => sum rules
  | .mul => product rules

theorem gatherNested (op : AssocOp) (ps qs : List Outline) :
    gather rules op (gather rules op ps :: qs) = gather rules op (ps ++ qs) := by
  cases op with
  | add =>
    have total : ((sum rules ps :: qs).map addends).sum = ((ps ++ qs).map addends).sum := by
      rw [List.map_cons, List.sum_cons, List.map_append, List.sum_append]
      rfl
    have sound : (sum rules (sum rules ps :: qs)).sound ↔ (sum rules (ps ++ qs)).sound := by
      simp only [sum, List.forall_mem_cons, List.forall_mem_append] at total ⊢
      rw [total]
      constructor
      · rintro ⟨⟨⟨⟨onPs, _⟩, _⟩, onQs⟩, obeyed⟩
        exact ⟨⟨onPs, onQs⟩, obeyed⟩
      · rintro ⟨⟨onPs, onQs⟩, obeyed⟩
        refine ⟨⟨⟨⟨onPs, rules.sumPart ?_ obeyed⟩, fun _ h => by cases h⟩, onQs⟩, obeyed⟩
        rw [List.map_append, List.sum_append]
        exact Multiset.le_add_right _ _
    show sum rules (sum rules ps :: qs) = sum rules (ps ++ qs)
    unfold sum at total sound ⊢
    simp only [Outline.mk.injEq, true_and]
    exact ⟨total, propext sound⟩
  | mul =>
    have total : ((product rules ps :: qs).map factors).sum = ((ps ++ qs).map factors).sum := by
      rw [List.map_cons, List.sum_cons, List.map_append, List.sum_append]
      rfl
    have solid : (product rules (product rules ps :: qs)).solid ↔
        (product rules (ps ++ qs)).solid := by
      simp only [product, List.exists_mem_cons_iff, List.mem_append, or_and_right, exists_or]
    have sound : (product rules (product rules ps :: qs)).sound ↔
        (product rules (ps ++ qs)).sound := by
      simp only [product, List.forall_mem_cons, List.forall_mem_append] at total ⊢
      rw [total]
      constructor
      · rintro ⟨⟨⟨⟨onPs, _⟩, _⟩, onQs⟩, obeyed⟩
        exact ⟨⟨onPs, onQs⟩, obeyed⟩
      · rintro ⟨⟨onPs, onQs⟩, obeyed⟩
        refine ⟨⟨⟨⟨onPs, rules.productPart ?_ obeyed⟩, trivial⟩, onQs⟩, obeyed⟩
        rw [List.map_append, List.sum_append]
        exact Multiset.le_add_right _ _
    show product rules (product rules ps :: qs) = product rules (ps ++ qs)
    unfold product at total solid sound ⊢
    simp only [Outline.mk.injEq, true_and]
    exact ⟨total, propext solid, propext sound⟩

theorem gatherPerm (op : AssocOp) {ps qs : List Outline} (same : ps.Perm qs) :
    gather rules op ps = gather rules op qs := by
  have members : ∀ p, p ∈ ps ↔ p ∈ qs := fun p => same.mem_iff
  cases op with
  | add =>
    have total := (same.map addends).sum_eq
    simp only [gather, sum, members, total]
  | mul =>
    have total := (same.map factors).sum_eq
    simp only [gather, product, members, total]

def interpretation : Interpretation Outline where
  const n := ⟨.constant, {n}, {n}, False, True⟩
  var _ := ⟨.atom, 0, 0, True, True⟩
  neg p := ⟨.negation, 0, 0, True, rules.negation ∧ p.sound ∧ p.Closed rules ∧
    (p.kind = .atom ∨ p.kind = .product)⟩
  bin
    | .add => fun p q => gather rules .add [p, q]
    | .sub => fun _ _ => ⟨.sum, 0, 0, True, False⟩
    | .mul => fun p q => gather rules .mul [p, q]
    | .div => fun p q => ⟨.atom, 0, 0, True, p.sound ∧ q.sound ∧ p.kind ≠ .sum ∧
        p.Closed rules ∧ q.Closed rules⟩
  assoc op p q r := by
    have grouped : gather rules op [gather rules op [p, q], r] =
        gather rules op [p, gather rules op [q, r]] := by
      rw [gatherNested, gatherPerm rules op (.swap (gather rules op [q, r]) p []), gatherNested]
      exact gatherPerm rules op (List.perm_append_comm : ([p] ++ [q, r]).Perm ([q, r] ++ [p]))
    cases op <;> exact grouped

theorem commutative : (interpretation rules).Commutative := by
  intro op p q
  have turned := gatherPerm rules op (.swap q p [])
  cases op <;> exact turned

theorem chainEq (op : AssocOp) (p q : Outline) (ps : List Outline) :
    (interpretation rules).chain op p (q :: ps) = gather rules op (p :: q :: ps) := by
  have binary : ∀ x y, (interpretation rules).bin op.bin x y = gather rules op [x, y] := by
    cases op <;> exact fun _ _ => rfl
  have chains : ∀ (ps qs : List Outline),
      (interpretation rules).chain op (gather rules op qs) ps = gather rules op (qs ++ ps) := by
    intro ps
    induction ps with
    | nil => exact fun qs => by rw [List.append_nil]; rfl
    | cons next rest ih =>
      intro qs
      have joined := binary (gather rules op qs) next
      rw [gatherNested] at joined
      rw [Interpretation.chain, List.foldl_cons, joined, ← Interpretation.chain, ih,
        List.append_assoc]
      rfl
  rw [Interpretation.chain, List.foldl_cons, binary, ← Interpretation.chain, chains]
  rfl

end Outline

def outline (rules : Rules) (e : Expr) : Outline := e.value (Outline.interpretation rules)

variable {rules : Rules}

theorem outlineFlat (op : AssocOp) (first second : Expr) (rest : List Expr) :
    outline rules (.flat op first second rest) =
      .gather rules op ((first :: second :: rest).map (outline rules)) := by
  rw [outline, valueFlat]
  exact Outline.chainEq rules op _ _ _

theorem outlineKind (e : Expr) : (outline rules e).kind = kind e := by
  cases e with
  | bin op _ _ => cases op <;> rfl
  | flat op _ _ _ => rw [outlineFlat]; cases op <;> rfl
  | _ => rfl

theorem constantsCons (e : Expr) (es : List Expr) :
    constants (e :: es) = constants [e] + constants es := by
  unfold constants
  rw [Multiset.coe_add, ← List.filterMap_append]
  rfl

theorem outlineFactors {es : List Expr}
    (factors : ∀ e ∈ es, kind e = .constant ∨ kind e = .atom) :
    ((es.map (outline rules)).map Outline.factors).sum = constants es := by
  induction es with
  | nil => rfl
  | cons e rest ih =>
    have one : (outline rules e).factors = constants [e] := by
      rcases factors e (by simp) with found | found
      · obtain ⟨n, rfl⟩ := constantKind found
        rfl
      · rcases atomKind found with ⟨name, rfl⟩ | ⟨left, right, rfl⟩ <;> rfl
    rw [List.map_cons, List.map_cons, List.sum_cons, one, ih fun t mem => factors t (by simp [mem]),
      ← constantsCons]

theorem outlineAddends {es : List Expr} (terms : ∀ e ∈ es, kind e ≠ .sum) :
    ((es.map (outline rules)).map Outline.addends).sum = constants es := by
  induction es with
  | nil => rfl
  | cons e rest ih =>
    have one : (outline rules e).addends = constants [e] := by
      have term := terms e (by simp)
      cases e with
      | bin op _ _ => cases op <;> first | rfl | exact absurd rfl term
      | flat op _ _ _ =>
        rw [outlineFlat]
        cases op with
        | add => exact absurd rfl term
        | mul => rfl
      | _ => rfl
    rw [List.map_cons, List.map_cons, List.sum_cons, one, ih fun t mem => terms t (by simp [mem]),
      ← constantsCons]

theorem atomSolid {e : Expr} (atom : kind e = .atom) : (outline rules e).solid := by
  rcases atomKind atom with ⟨name, rfl⟩ | ⟨left, right, rfl⟩ <;> trivial

theorem constantSolid {e : Expr} (constant : kind e = .constant) : ¬(outline rules e).solid := by
  obtain ⟨n, rfl⟩ := constantKind constant
  exact id

theorem notProductClosed {e : Expr} (other : kind e ≠ .product) :
    (outline rules e).Closed rules :=
  fun _ same => absurd ((outlineKind e).symm.trans same) other

theorem shapedSound {e : Expr} (shaped : Shaped rules e) :
    (outline rules e).sound ∧ (outline rules e).Closed rules := by
  induction shaped with
  | const n => exact ⟨trivial, notProductClosed (by simp [kind])⟩
  | var name => exact ⟨trivial, notProductClosed (by simp [kind])⟩
  | neg allowed solid _ ih =>
    refine ⟨⟨allowed, ih.1, ih.2, ?_⟩, notProductClosed (by simp [kind])⟩
    exact solid.imp (outlineKind _).trans (outlineKind _).trans
  | div numerator _ _ ihl ihr =>
    refine ⟨⟨ihl.1, ihr.1, fun same => ?_, ihl.2, ihr.2⟩, notProductClosed (by simp [kind, kindOfBin])⟩
    exact numerator ((outlineKind _).symm.trans same)
  | product factors obeyed solid _ ih =>
    rw [outlineFlat]
    refine ⟨⟨?_, ?_⟩, fun must _ => ?_⟩
    · rw [List.forall_mem_map]
      intro e mem
      refine ⟨(ih e mem).1, ?_⟩
      rw [outlineKind]
      rcases factors e mem with found | found <;> rw [found] <;> trivial
    · rw [outlineFactors factors]
      exact obeyed
    · obtain ⟨e, mem, atom⟩ := solid must
      exact ⟨outline rules e, List.mem_map_of_mem mem, atomSolid atom⟩
  | sum terms obeyed _ ih =>
    rw [outlineFlat]
    refine ⟨⟨?_, ?_⟩, fun _ same => by cases same⟩
    · rw [List.forall_mem_map]
      exact ih
    · rw [outlineAddends terms]
      exact obeyed

theorem soundShaped {e : Expr} (flattened : Flattened e) (sound : (outline rules e).sound)
    (closed : (outline rules e).Closed rules) : Shaped rules e := by
  induction flattened with
  | const n => exact .const n
  | var name => exact .var name
  | @neg arg _ ih =>
    obtain ⟨allowed, inner, whole, solid⟩ := sound
    have same : (arg.value (Outline.interpretation rules)).kind = kind arg := outlineKind arg
    rw [same] at solid
    exact .neg allowed solid (ih inner whole)
  | @bin op left right other _ _ ihl ihr =>
    cases op with
    | div =>
      obtain ⟨onLeft, onRight, numerator, wholeLeft, wholeRight⟩ := sound
      have same : (left.value (Outline.interpretation rules)).kind = kind left := outlineKind left
      rw [same] at numerator
      exact .div numerator (ihl onLeft wholeLeft) (ihr onRight wholeRight)
    | sub => exact sound.elim
    | _ => cases other
  | @flat op first second rest each apart ih =>
    rw [outlineFlat] at sound closed
    cases op with
    | mul =>
      obtain ⟨parts, obeyed⟩ := sound
      rw [List.forall_mem_map] at parts
      have factors : ∀ e ∈ first :: second :: rest, kind e = .constant ∨ kind e = .atom := by
        intro e mem
        have factor := (parts e mem).2
        rw [outlineKind] at factor
        cases found : kind e with
        | constant => exact .inl rfl
        | atom => exact .inr rfl
        | product => exact absurd (productKind found) (apart e mem)
        | _ => rw [found] at factor; exact factor.elim
      rw [outlineFactors factors] at obeyed
      refine .product factors obeyed (fun must => ?_) fun e mem => ?_
      · obtain ⟨p, mem, solid⟩ := closed must rfl
        obtain ⟨e, member, rfl⟩ := List.mem_map.1 mem
        refine ⟨e, member, (factors e member).resolve_left fun constant => ?_⟩
        exact constantSolid constant solid
      · refine ih e mem (parts e mem).1 (notProductClosed ?_)
        rcases factors e mem with found | found <;> rw [found] <;> decide
    | add =>
      obtain ⟨parts, obeyed⟩ := sound
      rw [List.forall_mem_map] at parts
      have terms : ∀ e ∈ first :: second :: rest, kind e ≠ .sum := by
        intro e mem found
        rcases sumKind found with root | ⟨left, right, rfl⟩
        · exact apart e mem root
        · exact (parts _ mem).1.elim
      rw [outlineAddends terms] at obeyed
      exact .sum terms obeyed fun e mem => ih e mem (parts e mem).1 (parts e mem).2

theorem shapedFlattened {e : Expr} (shaped : Shaped rules e) : Flattened e := by
  induction shaped with
  | const n => exact .const n
  | var name => exact .var name
  | neg _ _ _ ih => exact .neg ih
  | div _ _ _ ihl ihr => exact .bin rfl ihl ihr
  | product factors _ _ _ ih =>
    refine .flat ih fun e mem root => ?_
    have found := kindOfRoot root
    rcases factors e mem with other | other <;> cases other.symm.trans found
  | sum terms _ _ ih => exact .flat ih fun e mem root => terms e mem (kindOfRoot root)

theorem Shaped.rearranged {a b : Expr} (shaped : Shaped rules a) (flattened : Flattened b)
    (same : Rearranged a b) : Shaped rules b := by
  have outlines : outline rules a = outline rules b :=
    same Outline (Outline.interpretation rules) (Outline.commutative rules)
  obtain ⟨sound, closed⟩ := shapedSound shaped
  rw [outlines] at sound closed
  exact soundShaped flattened sound closed

end ArithEquiv.Normalize
