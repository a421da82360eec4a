import ArithEquiv.Proofs.Termination
import ArithEquiv.Proofs.Traversal

/-! Constants written out as sums of ones. The tree is refused for its first constant whose sum would
have more nodes than are allowed, and otherwise only its constants are exchanged, each for a tree of
the same value. The node of a negation in front of a sum is not counted, so a negative constant may
be exchanged for a tree that has one node more than is allowed. -/
namespace ArithEquiv

namespace Expr

mutual

def withConstants (g : Int → Expr) : Expr → Expr
  | .const value => g value
  | .var name => .var name
  | .neg arg => .neg (arg.withConstants g)
  | .bin op left right => .bin op (left.withConstants g) (right.withConstants g)
  | .flat op first second rest =>
      .flat op (first.withConstants g) (second.withConstants g) (allWithConstants g rest)

def allWithConstants (g : Int → Expr) : List Expr → List Expr
  | [] => []
  | e :: rest => e.withConstants g :: allWithConstants g rest

end

theorem allWithConstantsEq (g : Int → Expr) (es : List Expr) :
    allWithConstants g es = es.map (withConstants g) := by
  induction es with
  | nil => rfl
  | cons e rest ih => rw [allWithConstants, ih, List.map_cons]

def integers (e : Expr) : List Int := e.postorder.filterMap const?

theorem memIntegers {e : Expr} {value : Int} : value ∈ e.integers ↔ .const value ∈ e.postorder := by
  rw [integers, List.mem_filterMap]
  refine ⟨fun ⟨t, mem, found⟩ => ?_, fun mem => ⟨_, mem, rfl⟩⟩
  cases t <;> cases found
  exact mem

theorem withChildrenConst {t : Expr} {parts : List Expr} {value : Int}
    (built : t.withChildren parts = .ok (.const value)) : t = .const value := by
  unfold withChildren at built
  split at built
  · exact Except.ok.inj built
  all_goals try cases built
  unfold ofOperands at built
  split at built
  · cases built
  · split at built <;> cases built

theorem offeredConst {g : Expr → Except Fault Expr} {t : Expr} {value : Int}
    (rebuilt : offered g t = .ok (.const value)) : t = .const value := by
  obtain ⟨parts, _, built⟩ := bindOk.1 rebuilt
  exact withChildrenConst built

end Expr

namespace Normalize

open ArithEquiv.Expr

inductive UnitSum : Expr → Prop where
  | zero : UnitSum (.const 0)
  | one : UnitSum (.const 1)
  | add {left right : Expr} (onLeft : UnitSum left) (onRight : UnitSum right) :
      UnitSum (.bin .add left right)

structure Spells (value : Int) (t : Expr) : Prop where
  units : UnitSum t ∨ ∃ sum, t = .neg sum ∧ UnitSum sum
  same : ∀ {A : Type u} [CommSemiring A] {a : Arithmetic A}, a.Exact → a.value t = a.const value

def oversized (settings : Settings) (value : Int) : Bool :=
  settings.maxNodes < (ones value.natAbs).size

section Sums

theorem unitSumOnes (n : Nat) : UnitSum (ones n) := by
  induction n with
  | zero => exact .zero
  | succ n ih => exact .add ih .one

theorem sizeOnes (n : Nat) : (ones n).size = 2 * n + 1 := by
  induction n with
  | zero => rfl
  | succ n ih =>
    rw [ones, size, ih]
    simp only [size]
    omega

theorem sizeWritten (value : Int) : (writtenOut (.const value)).size =
    (ones value.natAbs).size + if value < 0 then 1 else 0 := by
  rw [writtenOut]
  split
  · rw [size, Nat.add_comm]
  · rfl

theorem spellsWritten (value : Int) : Spells.{u} value (writtenOut (.const value)) := by
  refine ⟨?_, fun {A} _ {a} exact => ?_⟩
  · rw [writtenOut]
    split
    · exact .inr ⟨_, rfl, unitSumOnes _⟩
    · exact .inl (unitSumOnes _)
  · have room : constToOnesNode { maxNodes := 2 * value.natAbs + 1 } (.const value) =
        .ok (writtenOut (.const value)) := by
      rw [constToOnesNode, if_neg (by simp), writtenOut]
      split <;> rfl
    exact (constToOnesNodeValue exact room).symm

end Sums

section Refusals

variable {settings : Settings} {e r t : Expr} {fault : Fault} {value : Int}

theorem constToOnesNodeFault : constToOnesNode settings t = .error fault ↔
    ∃ value, t = .const value ∧ oversized settings value = true ∧
      fault = .diverged "ExpandConst" (.constantTooLarge value) := by
  have large (value : Int) : oversized settings value = true ↔
      (2 * value.natAbs + 1 : Int) > settings.maxNodes := by
    rw [oversized, decide_eq_true_iff, sizeOnes]
    omega
  unfold constToOnesNode
  split
  · rename_i value
    simp only [Expr.const.injEq, exists_eq_left', large]
    split
    · rename_i more
      exact ⟨fun failed => ⟨more, (Except.error.inj failed).symm⟩, fun found => by rw [found.2]⟩
    · rename_i fits
      refine ⟨fun failed => ?_, fun found => absurd found.1 fits⟩
      split at failed <;> cases failed
  · rename_i other
    exact ⟨nofun, fun ⟨value, same, _⟩ => absurd same (other value)⟩

theorem writtenOutOk (run : constToOnes settings e = .ok r) :
    r = e.withConstants fun value => writtenOut (.const value) := by
  refine bottomUpInduction (P := fun e r => r = e.withConstants fun value => writtenOut (.const value))
    ?_ ?_ ?_ ?_ ?_ run
  · intro value r last
    rcases constToOnesNodeOk last with ⟨n, same, rfl⟩ | ⟨other, _⟩
    · cases same
      rfl
    · cases other
  · intro name r last
    exact constToOnesNodeOther rfl last
  · intro arg a r worked last
    rw [constToOnesNodeOther rfl last, worked]
    rfl
  · intro op left right l r' r onLeft onRight last
    rw [constToOnesNodeOther rfl last, onLeft, onRight]
    rfl
  · intro op first second rest a b more r worked last
    cases worked with
    | cons onFirst worked =>
      cases worked with
      | cons onSecond others =>
        have same : more = rest.map (withConstants fun value => writtenOut (.const value)) := by
          rw [← List.forall₂_eq_eq_eq, List.forall₂_map_right_iff]
          exact others.flip
        rw [constToOnesNodeOther rfl last, onFirst, onSecond, same, withConstants, allWithConstantsEq]

theorem constToOnesEq (settings : Settings) (e : Expr) :
    constToOnes settings e =
      match e.integers.find? (oversized settings) with
      | some value => .error (.diverged "ExpandConst" (.constantTooLarge value))
      | none => .ok (e.withConstants fun value => writtenOut (.const value)) := by
  obtain ⟨calls, _, ran⟩ := followsBottomUp (constToOnesNode settings) e
  have fits {nodes calls : List Expr} (passed : List.Forall₂ (Takes (constToOnesNode settings)) nodes calls) :
      ∀ value ∈ nodes.filterMap const?, ¬oversized settings value = true := by
    intro value mem large
    obtain ⟨t, mem, found⟩ := List.mem_filterMap.1 mem
    obtain ⟨n, _, takes⟩ := forallTwoLeft passed mem
    obtain ⟨r, ok⟩ := takes.passed
    cases t <;> cases found
    obtain rfl : .const value = n := Except.ok.inj takes.rebuilt
    cases (constToOnesNodeFault.2 ⟨value, rfl, large, rfl⟩).symm.trans ok
  cases run : constToOnes settings e with
  | ok r =>
    have none : e.integers.find? (oversized settings) = none :=
      List.find?_eq_none.2 (fits (ran.all r run))
    rw [none, writtenOutOk run]
  | error fault =>
    obtain ⟨before, t, after, earlier, last, split, _, passed, rebuilt, failed⟩ := ran.stopped fault run
    obtain ⟨value, rfl, large, rfl⟩ := constToOnesNodeFault.1 failed
    obtain rfl := offeredConst rebuilt
    have parts : e.integers = before.filterMap const? ++ value :: after.filterMap const? := by
      rw [integers, split, List.filterMap_append]
      rfl
    have found : e.integers.find? (oversized settings) = some value := by
      rw [parts, List.find?_append, List.find?_eq_none.2 (fits passed), List.find?_cons_of_pos large]
      rfl
    rw [found]

theorem writingRefused : constToOnes settings e = .error fault ↔
    ∃ value, e.integers.find? (oversized settings) = some value ∧
      fault = .diverged "ExpandConst" (.constantTooLarge value) := by
  rw [constToOnesEq]
  cases e.integers.find? (oversized settings) with
  | none => exact ⟨nofun, nofun⟩
  | some value =>
    refine ⟨fun failed => ⟨value, rfl, (Except.error.inj failed).symm⟩, ?_⟩
    rintro ⟨_, ⟨⟩, rfl⟩
    rfl

theorem writingDecided (settings : Settings) (e : Expr) :
    (∃ fault, constToOnes settings e = .error fault) ∨
      constToOnes settings e = .ok (e.withConstants fun value => writtenOut (.const value)) := by
  cases run : constToOnes settings e with
  | error fault => exact .inl ⟨fault, rfl⟩
  | ok r => exact .inr (by rw [writtenOutOk run])

/- Only where the sum has just the size allowed does the node of a negation matter. -/
theorem oversizedWritten (apart : value < 0 → ((ones value.natAbs).size : Int) ≠ settings.maxNodes) :
    oversized settings value = true ↔ settings.maxNodes < (writtenOut (.const value)).size := by
  rw [oversized, decide_eq_true_iff, sizeWritten]
  split
  · rename_i negative
    have other := apart negative
    omega
  · rfl

end Refusals

theorem writingOutExact (settings : Settings) (e : Expr) :
    (∀ fault, constToOnes settings e = .error fault ↔
      ∃ value, e.integers.find? (oversized settings) = some value ∧
        fault = .diverged "ExpandConst" (.constantTooLarge value)) ∧
    ((∀ value, .const value ∈ e.postorder → value < 0 →
        ((ones value.natAbs).size : Int) ≠ settings.maxNodes) →
      ((∃ fault, constToOnes settings e = .error fault) ↔
        ∃ value, .const value ∈ e.postorder ∧
          settings.maxNodes < (writtenOut (.const value)).size)) ∧
    ((∃ fault, constToOnes settings e = .error fault) ∨
      constToOnes settings e = .ok (e.withConstants fun value => writtenOut (.const value))) ∧
    ∀ value, Spells.{u} value (writtenOut (.const value)) := by
  refine ⟨fun _ => writingRefused, fun apart => ?_, writingDecided settings e, spellsWritten⟩
  constructor
  · rintro ⟨fault, failed⟩
    obtain ⟨value, found, _⟩ := writingRefused.1 failed
    have mem := memIntegers.1 (List.mem_of_find?_eq_some found)
    exact ⟨value, mem, (oversizedWritten (apart value mem)).1 (List.find?_some found)⟩
  · rintro ⟨value, mem, large⟩
    have large := (oversizedWritten (apart value mem)).2 large
    have found := List.find?_isSome.2 ⟨value, memIntegers.2 mem, large⟩
    obtain ⟨first, found⟩ := Option.isSome_iff_exists.1 found
    exact ⟨_, writingRefused.2 ⟨first, found, rfl⟩⟩

def fiveNodes : Settings := { constants := .expand, maxNodes := 5 }

def mixedConstants : Expr :=
  .flat .add (.const 2) (.bin .div (.neg (.const (-1))) (.const 0)) [.const (-3), .const 4]

theorem writingOutExactMixed :
    (∀ value, .const value ∈ mixedConstants.postorder → value < 0 →
      ((ones value.natAbs).size : Int) ≠ fiveNodes.maxNodes) ∧
    constToOnes fiveNodes mixedConstants =
      .error (.diverged "ExpandConst" (.constantTooLarge (-3))) ∧
    ((∃ fault, constToOnes fiveNodes mixedConstants = .error fault) ↔
      ∃ value, .const value ∈ mixedConstants.postorder ∧
        fiveNodes.maxNodes < (writtenOut (.const value)).size) := by
  have apart : ∀ value ∈ mixedConstants.integers, value < 0 →
      ((ones value.natAbs).size : Int) ≠ fiveNodes.maxNodes := by
    decide +kernel
  have apart' := fun value mem => apart value (memIntegers.2 mem)
  exact ⟨apart', by decide +kernel, (writingOutExact.{0} fiveNodes mixedConstants).2.1 apart'⟩

def threeNodes : Settings := { constants := .expand, maxNodes := 3 }

/- Minus one is exchanged for a tree of four nodes where three are allowed. -/
theorem negationUncounted :
    constToOnes threeNodes (.const (-1)) = .ok (.neg (.bin .add (.const 0) (.const 1))) ∧
    ¬((∃ fault, constToOnes threeNodes (.const (-1)) = .error fault) ↔
      ∃ value, .const value ∈ (Expr.const (-1)).postorder ∧
        threeNodes.maxNodes < (writtenOut (.const value)).size) := by
  have run : constToOnes threeNodes (.const (-1)) = .ok (.neg (.bin .add (.const 0) (.const 1))) := by
    decide +kernel
  refine ⟨run, fun refused => ?_⟩
  obtain ⟨fault, failed⟩ := refused.2 ⟨-1, List.mem_singleton_self _, by decide⟩
  cases run.symm.trans failed

end Normalize

end ArithEquiv
