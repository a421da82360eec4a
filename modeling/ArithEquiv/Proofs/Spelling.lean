import ArithEquiv.Proofs.SignLaws
import ArithEquiv.Proofs.Stages

/-! The terms of a tree from left to right, each with its sign and its factors from left to right.
Zero has no terms and one no factors, so the passes that reduce signs and drop units keep what is
spelled, and a tree that they have left with its signs in front can be put together again from it. -/
namespace ArithEquiv

abbrev Spelling := List (Bool × List Expr)

namespace Spelling

def term : Bool × List Expr → Expr
  | (false, factors) => .join .mul factors
  | (true, []) => .const (-1)
  | (true, factors) => .neg (.join .mul factors)

def tree (x : Spelling) : Expr := .join .add (x.map term)

def opposite {α : Type} (t : Bool × α) : Bool × α := (!t.1, t.2)

theorem oppositeTwice {α : Type} (t : Bool × α) : opposite (opposite t) = t :=
  Prod.ext (Bool.not_not t.1) rfl

def cross (x y : Spelling) : Spelling :=
  x.flatMap fun s => y.map fun t => (s.1 ^^ t.1, s.2 ++ t.2)

theorem crossOne (x : Spelling) : cross x [(false, [])] = x := by
  simp [cross, List.flatMap_singleton']

theorem oneCross (x : Spelling) : cross [(false, [])] x = x := by simp [cross]

theorem crossOpposite (x : Spelling) : cross x [(true, [])] = x.map opposite := by
  induction x with
  | nil => rfl
  | cons s rest ih =>
    have head : (s.1 ^^ true, s.2 ++ []) = opposite s := by simp [opposite]
    exact congrArg₂ List.cons head ih

theorem oppositeCross (x : Spelling) : cross [(true, [])] x = x.map opposite := by
  simp [cross, opposite]

theorem crossAssoc (x y z : Spelling) : cross (cross x y) z = cross x (cross y z) := by
  simp only [cross, List.flatMap_assoc, List.flatMap_map, List.map_flatMap, List.map_map,
    Function.comp_def, Bool.xor_assoc, List.append_assoc]

def const (n : Int) : Spelling :=
  if n = 1 then [(false, [])] else if n = -1 then [(true, [])] else []

/- Constants other than one and minus one are taken for zero: there are none in what this is for. -/
def interpretation : Interpretation Spelling where
  const := const
  var name := [(false, [.var name])]
  neg x := x.map opposite
  bin
    | .add => fun x y => x ++ y
    | .sub => fun x y => x ++ y.map opposite
    | .mul => cross
    | .div => fun x y => [(false, [.bin .div (tree x) (tree y)])]
  assoc
    | .add => List.append_assoc
    | .mul => crossAssoc

theorem constCases (n : Int) : n = 1 ∧ const n = [(false, [])] ∨
    n = -1 ∧ const n = [(true, [])] ∨ n ≠ 1 ∧ n ≠ -1 ∧ const n = [] := by
  unfold const
  by_cases one : n = 1
  · exact .inl ⟨one, if_pos one⟩
  · by_cases minus : n = -1
    · exact .inr (.inl ⟨minus, by rw [if_neg one, if_pos minus]⟩)
    · exact .inr (.inr ⟨one, minus, by rw [if_neg one, if_neg minus]⟩)

theorem signLaws : interpretation.SignLaws where
  zeroAdd _ := rfl
  addZero := List.append_nil
  zeroMul _ := rfl
  mulZero x := by
    show cross x [] = []
    simp [cross]
  oneMul := oneCross
  mulOne := crossOne
  central n x := by
    show cross x (const n) = cross (const n) x
    rcases constCases n with ⟨_, same⟩ | ⟨_, same⟩ | ⟨_, _, same⟩
    · rw [same, crossOne, oneCross]
    · rw [same, crossOpposite, oppositeCross]
    · rw [same]
      simp [cross]
  magnitude n := by
    show cross (const (-1)) (const (-n)) = const n
    have minus : const (-1) = [(true, [])] := rfl
    rw [minus, oppositeCross]
    rcases constCases n with ⟨rfl, same⟩ | ⟨rfl, same⟩ | ⟨one, minus, same⟩
    · rfl
    · rfl
    · rw [same, const, if_neg (by omega), if_neg (by omega)]
      rfl
  neg x := (oppositeCross x).symm
  subZero := List.append_nil
  zeroSub _ := rfl

end Spelling

namespace Expr

def spelling (e : Expr) : Spelling := e.value Spelling.interpretation

end Expr

namespace Normalize

open ArithEquiv.Expr Spelling

theorem spellingAtoms (e : Expr) : ∀ t ∈ e.spelling, ∀ f ∈ t.2, kind f = .atom := by
  refine valueHolds (P := fun x : Spelling => ∀ t ∈ x, ∀ f ∈ t.2, kind f = .atom) _ ?_ ?_ ?_ ?_ e
  · intro n t mem f factor
    have none : t.2 = [] := by
      have found : t ∈ Spelling.const n := mem
      rcases constCases n with ⟨_, same⟩ | ⟨_, same⟩ | ⟨_, _, same⟩ <;>
        simp [same] at found <;> simp [found]
    rw [none] at factor
    cases factor
  · intro name t mem f factor
    cases List.mem_singleton.1 mem
    cases List.mem_singleton.1 factor
    rfl
  · intro x atoms t mem
    obtain ⟨s, member, rfl⟩ := List.mem_map.1 mem
    exact atoms s member
  · intro op x y atomsX atomsY t mem
    cases op with
    | add => exact (List.mem_append.1 mem).elim (atomsX t) (atomsY t)
    | sub =>
      rcases List.mem_append.1 mem with mem | mem
      · exact atomsX t mem
      · obtain ⟨s, member, rfl⟩ := List.mem_map.1 mem
        exact atomsY s member
    | mul =>
      obtain ⟨s, inX, inner⟩ := List.mem_flatMap.1 mem
      obtain ⟨u, inY, rfl⟩ := List.mem_map.1 inner
      intro f factor
      exact (List.mem_append.1 factor).elim (atomsX s inX f) (atomsY u inY f)
    | div =>
      intro f factor
      cases List.mem_singleton.1 mem
      cases List.mem_singleton.1 factor
      rfl

theorem spellingSum (first second : Expr) (rest : List Expr) :
    (Expr.flat .add first second rest).spelling = (first :: second :: rest).flatMap spelling := by
  have chains : ∀ (xs : List Expr) (x : Spelling), Spelling.interpretation.chain .add x
      (xs.map spelling) = x ++ xs.flatMap spelling := by
    intro xs
    induction xs with
    | nil => exact fun x => (List.append_nil x).symm
    | cons e rest ih => exact fun x => (ih (x ++ e.spelling)).trans (List.append_assoc _ _ _)
  exact (valueFlat _ _ _ _ _).trans (chains _ _)

theorem spellingAtomProduct {es : List Expr} (atoms : ∀ e ∈ es, e.spelling = [(false, [e])]) :
    Spelling.interpretation.product (es.map spelling) = [(false, es)] := by
  induction es with
  | nil => rfl
  | cons e rest ih =>
    refine (congrArg₂ cross (atoms e (by simp)) (ih fun t mem => atoms t (by simp [mem]))).trans ?_
    rfl

section Reading

variable {v : Vocabulary} {e : Expr}

structure Spelled (e : Expr) : Prop where
  atom : kind e = .atom → e.spelling = [(false, [e])]
  solid : kind e = .atom ∨ kind e = .product →
    ∃ first rest, e.spelling = [(false, first :: rest)] ∧ join .mul (first :: rest) = e
  term : kind e ≠ .sum → e ≠ .const 0 → ∃ t, e.spelling = [t] ∧ Spelling.term t = e
  whole : Spelling.tree e.spelling = e

theorem Spelled.ofTerm {t : Bool × List Expr} (spells : e.spelling = [t])
    (whole : Spelling.term t = e) (atom : kind e = .atom → t = (false, [e]))
    (solid : kind e = .atom ∨ kind e = .product →
      ∃ first rest, t = (false, first :: rest) ∧ join .mul (first :: rest) = e) : Spelled e where
  atom found := by rw [spells, atom found]
  solid found := by
    obtain ⟨first, rest, same, joined⟩ := solid found
    exact ⟨first, rest, by rw [spells, same], joined⟩
  term _ _ := ⟨t, spells, whole⟩
  whole := by
    rw [spells]
    exact whole

theorem spelledConst {n : Int} (unit : n = 0 ∨ n = 1 ∨ n = -1) : Spelled (.const n) := by
  have notAtom : kind (.const n) ≠ .atom := by intro found; cases found
  have notProduct : kind (.const n) ≠ .product := by intro found; cases found
  rcases unit with rfl | rfl | rfl
  · exact ⟨fun found => absurd found notAtom, fun found => (found.elim notAtom notProduct).elim,
      fun _ some => absurd rfl some, rfl⟩
  · exact .ofTerm rfl rfl (fun found => absurd found notAtom)
      fun found => (found.elim notAtom notProduct).elim
  · exact .ofTerm rfl rfl (fun found => absurd found notAtom)
      fun found => (found.elim notAtom notProduct).elim

theorem shapedSpelled (units : ∀ n, v.const n → n = 0 ∨ n = 1 ∨ n = -1)
    (shaped : Shaped .signed e) (written : WrittenIn v e) : Spelled e := by
  induction shaped with
  | const n => exact spelledConst (units n written)
  | var name => exact .ofTerm rfl rfl (fun _ => rfl) fun _ => ⟨_, [], rfl, rfl⟩
  | @neg arg _ root _ ih =>
    obtain ⟨first, rest, spells, joined⟩ := (ih written.2).solid root
    refine .ofTerm (t := (true, first :: rest)) ?_ (congrArg Expr.neg joined)
      (fun found => by cases found) fun found => by rcases found with h | h <;> cases h
    exact congrArg (List.map opposite) spells
  | @div left right _ _ _ ihl ihr =>
    have same : (Expr.bin .div left right).spelling = [(false, [.bin .div left right])] := by
      show [(false, [Expr.bin .div left.spelling.tree right.spelling.tree])] = _
      rw [(ihl written.2.1).whole, (ihr written.2.2).whole]
    exact .ofTerm same rfl (fun _ => rfl) fun _ => ⟨_, [], rfl, rfl⟩
  | @product first second rest factors obeyed _ each ih =>
    have known := writtenFlat.1 written
    have atoms : ∀ e ∈ first :: second :: rest, e.spelling = [(false, [e])] := by
      intro e mem
      refine (ih e mem (known e mem)).atom ((factors e mem).resolve_left fun constant => ?_)
      obtain ⟨n, rfl⟩ := constantKind constant
      have big := obeyed.2 n (Multiset.mem_coe.2 (List.mem_filterMap.2 ⟨_, mem, rfl⟩))
      have unit := units n (known _ mem)
      omega
    have same : (Expr.flat .mul first second rest).spelling = [(false, first :: second :: rest)] :=
      (signLaws.valueJoin (first :: second :: rest)).trans (spellingAtomProduct atoms)
    exact .ofTerm same rfl (fun found => by cases found) fun _ => ⟨first, _, rfl, rfl⟩
  | @sum first second rest terms obeyed _ ih =>
    have known := writtenFlat.1 written
    refine ⟨fun found => (by cases found), fun found => (by rcases found with h | h <;> cases h),
      fun term => absurd rfl term, ?_⟩
    have spells : ∀ es : List Expr, (∀ e ∈ es, ∃ t, e.spelling = [t] ∧ Spelling.term t = e) →
        (es.flatMap spelling).map Spelling.term = es := by
      intro es
      induction es with
      | nil => exact fun _ => rfl
      | cons e rest more =>
        intro each
        obtain ⟨t, spells, whole⟩ := each e (by simp)
        rw [List.flatMap_cons, List.map_append, spells, more fun u mem => each u (by simp [mem]),
          List.map_singleton, whole]
        rfl
    have terms' : ((first :: second :: rest).flatMap spelling).map Spelling.term =
        first :: second :: rest := by
      refine spells _ fun e mem => ?_
      refine (ih e mem (known e mem)).term (terms e mem) ?_
      rintro rfl
      exact obeyed (Multiset.mem_coe.2 (List.mem_filterMap.2 ⟨_, mem, rfl⟩))
    rw [spellingSum]
    exact congrArg (join .add) terms'

end Reading

end Normalize

end ArithEquiv
