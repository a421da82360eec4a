import ArithEquiv.Proofs.Shape
import ArithEquiv.Proofs.Vocabulary

/-! Sweeps over shaped trees. A pass that rewrites flat calls only is known by what it makes of one
call whose operands it has been through: operands keep their kinds, but a product may lose its
other factors or become a negation. -/
namespace ArithEquiv

namespace Normalize

open ArithEquiv.Expr

structure Turns (rules : Rules) (e r : Expr) : Prop where
  constant : kind e = .constant → r = e
  atom : kind e = .atom → kind r = .atom
  negation : kind e = .negation → kind r = .negation
  product : kind e = .product →
    kind r = .atom ∨ kind r = .product ∨ kind r = .negation ∧ ¬rules.negation

variable {rules rules' : Rules}

theorem Turns.kept {e r : Expr} (same : kind r = kind e) (constant : kind e = .constant → r = e) :
    Turns rules e r where
  constant := constant
  atom found := same.trans found
  negation found := same.trans found
  product found := .inr (.inl (same.trans found))

theorem Turns.ofProduct {e r : Expr} (found : kind e = .product)
    (result : kind r = .atom ∨ kind r = .product ∨ kind r = .negation ∧ ¬rules.negation) :
    Turns rules e r := by
  constructor <;> intro other
  · cases found.symm.trans other
  · cases found.symm.trans other
  · cases found.symm.trans other
  · exact result

theorem Turns.ofSum {e : Expr} (found : kind e = .sum) (r : Expr) : Turns rules e r := by
  constructor <;> intro other <;> cases found.symm.trans other

theorem Turns.notSum {e r : Expr} (turns : Turns rules e r) (term : kind e ≠ .sum) :
    kind r ≠ .sum := by
  intro sum
  cases found : kind e with
  | constant =>
    rw [turns.constant found, found] at sum
    cases sum
  | atom => cases (turns.atom found).symm.trans sum
  | negation => cases (turns.negation found).symm.trans sum
  | product =>
    rcases turns.product found with h | h | ⟨h, _⟩ <;> cases h.symm.trans sum
  | sum => exact term found

theorem Turns.factor {e r : Expr} (turns : Turns rules e r)
    (factor : kind e = .constant ∨ kind e = .atom) : kind r = kind e := by
  rcases factor with found | found
  · rw [turns.constant found]
  · rw [turns.atom found, found]

theorem constNone {e : Expr} (other : kind e ≠ .constant) : e.const? = none := by
  cases e with
  | const n => exact absurd rfl other
  | _ => rfl

theorem constantsKept {es rs : List Expr} (turn : List.Forall₂ (Turns rules) es rs)
    (terms : ∀ e ∈ es, kind e ≠ .sum) : constants rs = constants es := by
  induction turn with
  | nil => rfl
  | @cons e r es rs head _ ih =>
    have one : constants [r] = constants [e] := by
      by_cases constant : kind e = .constant
      · rw [head.constant constant]
      · have still : kind r ≠ .constant := by
          intro became
          cases found : kind e with
          | constant => exact constant found
          | atom => cases (head.atom found).symm.trans became
          | negation => cases (head.negation found).symm.trans became
          | product =>
            rcases head.product found with h | h | ⟨h, _⟩ <;> cases h.symm.trans became
          | sum => exact terms e (by simp) found
        simp only [constants, List.filterMap_cons, constNone constant, constNone still]
    rw [constantsCons, constantsCons e, one, ih fun t mem => terms t (by simp [mem])]

def LeavesPlain (f : Expr → Except Fault Expr) : Prop :=
  ∀ e, (∀ op first second rest, e ≠ .flat op first second rest) → f e = .ok e

def Ready (rules : Rules) : AssocOp → List Expr → Prop
  | .add, es => (∀ e ∈ es, kind e ≠ .sum) ∧ rules.sum (constants es)
  | .mul, es => (∀ e ∈ es, kind e = .constant ∨ kind e = .atom) ∧ rules.product (constants es) ∧
      (rules.solid → ∃ e ∈ es, kind e = .atom)

theorem Ready.swept {op : AssocOp} {es rs : List Expr} (ready : Ready rules op es)
    (turn : List.Forall₂ (Turns rules) es rs) : Ready rules op rs := by
  cases op with
  | add =>
    obtain ⟨terms, obeyed⟩ := ready
    refine ⟨fun t mem => ?_, ?_⟩
    · obtain ⟨e, member, turns⟩ := forallTwoRight turn mem
      exact turns.notSum (terms e member)
    · rw [constantsKept turn terms]
      exact obeyed
  | mul =>
    obtain ⟨factors, obeyed, solid⟩ := ready
    refine ⟨fun t mem => ?_, ?_, fun must => ?_⟩
    · obtain ⟨e, member, turns⟩ := forallTwoRight turn mem
      rw [turns.factor (factors e member)]
      exact factors e member
    · rw [constantsKept turn]
      · exact obeyed
      · intro e mem sum
        rcases factors e mem with h | h <;> cases h.symm.trans sum
    · obtain ⟨e, mem, atom⟩ := solid must
      obtain ⟨t, member, turns⟩ := forallTwoLeft turn mem
      exact ⟨t, member, turns.atom atom⟩

theorem Shaped.sweep {f : Expr → Except Fault Expr} (plain : LeavesPlain f) {A : Type u}
    {i : Interpretation A} {rel : A → A → Prop} (related : i.Compatible rel)
    (negation : rules.negation → rules'.negation)
    (product : ∀ first second rest r, Ready rules .mul (first :: second :: rest) →
      (∀ e ∈ first :: second :: rest, Shaped rules' e) → f (.flat .mul first second rest) = .ok r →
      Shaped rules' r ∧ (kind r = .atom ∨ kind r = .product ∨ kind r = .negation ∧ ¬rules.negation))
    (sum : ∀ first second rest r, Ready rules .add (first :: second :: rest) →
      (∀ e ∈ first :: second :: rest, Shaped rules' e) → f (.flat .add first second rest) = .ok r →
      Shaped rules' r)
    (value : ∀ op first second rest r, Ready rules op (first :: second :: rest) →
      f (.flat op first second rest) = .ok r →
      rel ((Expr.flat op first second rest).value i) (r.value i))
    {e r : Expr} (shaped : Shaped rules e) (run : e.bottomUpM f = .ok r) :
    Shaped rules' r ∧ Turns rules e r ∧ rel (e.value i) (r.value i) := by
  have same : ∀ {e r : Expr}, (∀ op first second rest, e ≠ .flat op first second rest) →
      f e = .ok r → r = e := by
    intro e r other last
    rw [plain e other] at last
    exact (Except.ok.inj last).symm
  -- What a part turns into is carried along, for the call around it is asked for its kinds.
  refine bottomUpInduction (P := fun e r => Shaped rules e →
    Shaped rules' r ∧ Turns rules e r ∧ rel (e.value i) (r.value i)) ?_ ?_ ?_ ?_ ?_ run shaped
  · intro n r last _
    rw [same (by simp) last]
    exact ⟨.const n, .kept rfl fun _ => rfl, related.refl _⟩
  · intro name r last _
    rw [same (by simp) last]
    exact ⟨.var name, .kept rfl fun _ => rfl, related.refl _⟩
  · intro arg a r worked last shaped
    rw [same (by simp) last]
    cases shaped with
    | neg allowed solid inner =>
      obtain ⟨whole, turns, kept⟩ := worked inner
      refine ⟨.neg (negation allowed) ?_ whole, .kept rfl fun found => ?_, related.neg kept⟩
      · rcases solid with atom | found
        · exact .inl (turns.atom atom)
        · rcases turns.product found with h | h | ⟨_, none⟩
          · exact .inl h
          · exact .inr h
          · exact absurd allowed none
      · cases found
  · intro op left right l r' r onLeft onRight last shaped
    rw [same (by simp) last]
    cases shaped with
    | div numerator inLeft inRight =>
      obtain ⟨wholeLeft, turns, keptLeft⟩ := onLeft inLeft
      obtain ⟨wholeRight, _, keptRight⟩ := onRight inRight
      refine ⟨.div (turns.notSum numerator) wholeLeft wholeRight, .kept rfl fun found => ?_,
        related.bin .div keptLeft keptRight⟩
      cases found
  · intro op first second rest a b more r worked last shaped
    have whole : Ready rules op (first :: second :: rest) ∧
        ∀ e ∈ first :: second :: rest, Shaped rules e := by
      cases shaped with
      | product factors obeyed solid each => exact ⟨⟨factors, obeyed, solid⟩, each⟩
      | sum terms obeyed each => exact ⟨⟨terms, obeyed⟩, each⟩
    obtain ⟨before, each⟩ := whole
    have pairs := forallTwoOfMem worked fun e mem _ made => made (each e mem)
    have ready := before.swept (pairs.imp fun _ _ all => all.2.1)
    have parts : ∀ t ∈ a :: b :: more, Shaped rules' t := by
      intro t mem
      obtain ⟨e, _, made⟩ := forallTwoRight pairs mem
      exact made.1
    have kept := related.trans (related.flat (pairs.imp fun _ _ all => all.2.2))
      (value op a b more r ready last)
    cases op with
    | add => exact ⟨sum a b more r ready parts last, .ofSum rfl r, kept⟩
    | mul =>
      obtain ⟨made, root⟩ := product a b more r ready parts last
      exact ⟨made, .ofProduct rfl root, kept⟩

theorem LeavesPlain.pure {g : Expr → Expr}
    (plain : ∀ e, (∀ op first second rest, e ≠ .flat op first second rest) → g e = e) :
    LeavesPlain fun e => .ok (g e) :=
  fun e other => congrArg Except.ok (plain e other)

end Normalize

end ArithEquiv
