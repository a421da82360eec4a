import ArithEquiv.Proofs.ReducedTerms
import Mathlib.Computability.Language
import Mathlib.Order.CompletePartialOrder

/-! The names in the terms of a tree, from left to right: a set of words. Constants but zero say
nothing and products join words, so signs and units may go without a word changing its order, and
cancellation only takes words away. Ordering products once therefore leaves the names in every
later term in order. -/
namespace ArithEquiv

namespace Words

def interpretation : Interpretation (Language String) where
  const n := if n = 0 then 0 else 1
  var name := {[name]}
  neg l := l
  bin
    | .add => fun l m => l + m
    | .sub => fun l m => l + m
    | .mul => fun l m => l * m
    | .div => fun _ _ => 0
  assoc
    | .add => add_assoc
    | .mul => mul_assoc

theorem constSome {n : Int} (some : n ≠ 0) : interpretation.const n = 1 := if_neg some

theorem signLaws : interpretation.SignLaws where
  zeroAdd := zero_add
  addZero := add_zero
  zeroMul := zero_mul
  mulZero := mul_zero
  oneMul := one_mul
  mulOne := mul_one
  central n l := by
    by_cases zero : n = 0
    · rw [zero]
      exact (mul_zero l).trans (zero_mul l).symm
    · rw [constSome zero]
      exact (mul_one l).trans (one_mul l).symm
  magnitude n := by
    refine (one_mul (interpretation.const (-n))).trans ?_
    by_cases zero : n = 0
    · rw [zero]
      rfl
    · rw [constSome zero, constSome (by omega)]
  neg l := (one_mul l).symm
  subZero := add_zero
  zeroSub := zero_add

def combine : AssocOp → List (Language String) → Language String
  | .add => List.sum
  | .mul => List.prod

end Words

namespace Expr

def words (e : Expr) : Language String := e.value Words.interpretation

theorem wordsFlat (op : AssocOp) (first second : Expr) (rest : List Expr) :
    words (.flat op first second rest) =
      Words.combine op ((first :: second :: rest).map words) := by
  have chains : ∀ (xs : List (Language String)) (x : Language String),
      Words.interpretation.chain op x xs = Words.combine op (x :: xs) := by
    intro xs
    induction xs with
    | nil => cases op <;> simp [Interpretation.chain, Words.combine]
    | cons y ys ih =>
      intro x
      refine (ih _).trans ?_
      cases op with
      | add => simp only [Words.combine, List.sum_cons]; exact add_assoc x y _
      | mul => simp only [Words.combine, List.prod_cons]; exact mul_assoc x y _
  rw [words, valueFlat, chains]
  rfl

theorem wordsJoin (op : AssocOp) (es : List Expr) :
    words (.join op es) = Words.combine op (es.map words) := by
  match es with
  | [] => cases op <;> rfl
  | [e] => cases op <;> simp [join, Words.combine]
  | first :: second :: rest => exact wordsFlat op first second rest

theorem wordsConst {n : Int} (some : n ≠ 0) : words (.const n) = 1 := Words.constSome some

theorem memWordsSum {es : List Expr} {w : List String} :
    w ∈ (es.map words).sum ↔ ∃ e ∈ es, w ∈ words e := by
  induction es with
  | nil => simp [Language.notMem_zero]
  | cons e rest ih => simp [Language.mem_add, ih]

end Expr

namespace Normalize

open ArithEquiv.Expr

section Nodes

theorem cancelNodeWords (e : Expr) : words (cancelNode e) ≤ words e := by
  unfold cancelNode
  split
  · rename_i first second rest
    intro w mem
    rw [wordsJoin] at mem
    obtain ⟨e, member, inside⟩ := memWordsSum.1 mem
    rw [wordsFlat]
    exact memWordsSum.2 ⟨e, (keepSublist _ _).subset member, inside⟩
  · exact le_refl _

theorem fewerWords : Words.interpretation.Compatible fun l m => m ≤ l where
  refl _ := le_refl _
  trans h g := g.trans h
  neg h := h
  bin op a b c d h g := by
    cases op with
    | add => exact add_le_add h g
    | sub => exact add_le_add h g
    | mul => exact mul_le_mul' h g
    | div => exact le_refl _

end Nodes

section Passes

variable {settings : Settings} {e r : Expr}

theorem signedWords (run : signed settings e = .ok r) : ∃ products,
    distributed settings e = .ok products ∧
      flatten settings products = .ok (flattenOnce products) ∧
      words r = words (orderOnce settings.hash .mul (flattenOnce products)) := by
  obtain ⟨products, flat, ordered, multiplied, flattened, sorted, kept⟩ := Words.signLaws.signed run
  obtain rfl := flattenRun flattened
  obtain rfl := orderProductsRun sorted
  exact ⟨products, multiplied, flattened, kept⟩

theorem cancelOppositesWords (run : cancelOpposites settings e = .ok r) : words r ≤ words e := by
  obtain ⟨flat, flattened, sweeps⟩ := bindOk.1 run
  have kept : words flat = words e := flattenValue _ flattened
  rw [← kept]
  refine fixedPointRelated fewerWords (fun {b c} stepped => ?_) sweeps
  cases stepped
  exact fewerWords.bottomUp cancelNodeWords b

end Passes

section InTurn

variable {hash : NodeHash} {known : List Expr}

structure InTurn (hash : NodeHash) (known : List Expr) (w : List String) : Prop where
  sorted : w.Pairwise fun x y => before hash (.var x) (.var y)
  members : 2 ≤ w.length → ∀ name ∈ w, Expr.var name ∈ known

def name? : Expr → Option String
  | .var name => some name
  | _ => none

def names (es : List Expr) : List String := es.filterMap name?

theorem namesSublist (es : List Expr) : ((names es).map Expr.var).Sublist es := by
  induction es with
  | nil => exact .slnil
  | cons e rest ih =>
    cases e with
    | var name => exact ih.cons_cons _
    | _ => exact ih.cons _

theorem wordsOfFactors {es : List Expr} (plain : ∀ e ∈ es, (∃ n, e = .const n) ∨ ∃ x, e = .var x)
    {w : List String} (mem : w ∈ (es.map words).prod) : w = names es := by
  induction es generalizing w with
  | nil => exact (Language.mem_one w).1 mem
  | cons e rest ih =>
    rw [List.map_cons, List.prod_cons] at mem
    obtain ⟨u, inFirst, v, inRest, rfl⟩ := Language.mem_mul.1 mem
    have tail := ih (fun t member => plain t (by simp [member])) inRest
    rcases plain e (by simp) with ⟨n, rfl⟩ | ⟨x, rfl⟩
    · have none : u = [] := by
        by_cases zero : n = 0
        · subst zero
          exact absurd inFirst (Language.notMem_zero u)
        · rw [wordsConst zero] at inFirst
          exact (Language.mem_one u).1 inFirst
      rw [none, tail]
      rfl
    · have one : u = [x] := inFirst
      rw [one, tail]
      rfl

theorem wordsInTurn {rules : Rules} {v : Vocabulary} {e : Expr} (noDiv : ¬v.div)
    (shaped : Shaped rules e) (written : WrittenIn v e) (ordered : AllInOrder hash .mul e)
    (within : ∀ t ∈ e.operandsOf .mul, t ∈ known) : ∀ w ∈ words e, InTurn hash known w := by
  have nothing : InTurn hash known [] := ⟨.nil, fun many => by simp at many⟩
  induction shaped with
  | const n =>
    intro w mem
    by_cases zero : n = 0
    · subst zero
      exact absurd mem (Language.notMem_zero w)
    · rw [wordsConst zero] at mem
      rw [(Language.mem_one w).1 mem]
      exact nothing
  | var name =>
    intro w mem
    rw [show w = [name] from mem]
    exact ⟨List.pairwise_singleton _ _, fun many => by simp at many⟩
  | neg _ _ _ ih =>
    cases ordered with
    | neg inner => exact ih written.2 inner within
  | div => exact absurd written.1 noDiv
  | @product first second rest factors _ _ each _ =>
    intro w mem
    have known' := writtenFlat.1 written
    have plain : ∀ e ∈ first :: second :: rest, (∃ n, e = .const n) ∨ ∃ x, e = .var x := by
      intro e member
      rcases factors e member with constant | atom
      · exact .inl (constantKind constant)
      · rcases atomKind atom with named | ⟨left, right, rfl⟩
        · exact .inr named
        · exact absurd (known' _ member).1 noDiv
    rw [wordsFlat] at mem
    rw [wordsOfFactors plain mem]
    have part := namesSublist (first :: second :: rest)
    cases ordered with
    | flat sorted _ =>
      refine ⟨?_, fun _ name member => ?_⟩
      · exact List.pairwise_map.1 ((sorted trivial rfl).sublist part)
      · exact within _ (operandsOfRoot (part.subset (List.mem_map_of_mem member)))
  | @sum first second rest _ _ _ ih =>
    intro w mem
    rw [wordsFlat] at mem
    obtain ⟨e, member, inside⟩ := memWordsSum.1 mem
    cases ordered with
    | flat _ each =>
      exact ih e member (writtenFlat.1 written e member) (each e member)
        (fun t found => within t (operandsOfOperand member found)) w inside

end InTurn

end Normalize

end ArithEquiv
