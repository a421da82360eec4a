import ArithEquiv.Proofs.Comparison
import ArithEquiv.Proofs.Uncancelled

/-! What cancelling leaves of a sum, counted term by term. Counters say how often each term stands in
the sum and how often its negation; as many of both go as there are of the fewer. The counters are
kept under digests, but two terms are one only if they are the same tree, so that counting keeps the
same operands as lists of readings do. -/
namespace ArithEquiv

namespace Expr

inductive PartOf : Expr → Expr → Prop where
  | whole (e : Expr) : PartOf e e
  | child {t c e : Expr} (inner : PartOf t c) (mem : c ∈ e.children) : PartOf t e

end Expr

namespace Normalize

open ArithEquiv.Expr

section Counting

variable (hash : NodeHash) (sharing : Sharing)

abbrev Counter := List (Expr × Nat)

def lookUp (t : Expr) : Counter → Nat
  | [] => 0
  | (seen, n) :: rest => if sameStructure hash sharing seen t then n else lookUp t rest

def enter (t : Expr) (n : Nat) : Counter → Counter
  | [] => [(t, n)]
  | (seen, m) :: rest =>
    if sameStructure hash sharing seen t then (seen, n) :: rest else (seen, m) :: enter t n rest

structure Counters where
  negated : Counter
  plain : Counter

namespace Counters

def count (c : Counters) : Signed → Nat
  | .minus t => lookUp hash sharing t c.negated
  | .plus t => lookUp hash sharing t c.plain

def recount (c : Counters) (n : Nat) : Signed → Counters
  | .minus t => { c with negated := enter hash sharing t n c.negated }
  | .plus t => { c with plain := enter hash sharing t n c.plain }

end Counters

def tallied (operands : List Expr) : Counters :=
  operands.foldl (fun c e =>
    c.recount hash sharing (c.count hash sharing (.ofExpr e) + 1) (.ofExpr e)) ⟨[], []⟩

def offset? (plain : Counter) (entry : Expr × Nat) : Option (Expr × Nat) :=
  let n := lookUp hash sharing entry.1 plain
  if n = 0 then none else some (entry.1, min entry.2 n)

def offsets (c : Counters) : Counter := c.negated.filterMap (offset? hash sharing c.plain)

def keepCounted : List Expr → Counters → List Expr
  | [], _ => []
  | e :: rest, c =>
    let n := c.count hash sharing (.ofExpr e)
    if 0 < n then keepCounted rest (c.recount hash sharing (n - 1) (.ofExpr e))
    else e :: keepCounted rest c

def countedNode : Expr → Expr
  | .flat .add first second rest =>
    let pairs := offsets hash sharing (tallied hash sharing (first :: second :: rest))
    if pairs.isEmpty then .flat .add first second rest
    else .join .add (keepCounted hash sharing (first :: second :: rest) ⟨pairs, pairs⟩)
  | e => e

variable {hash sharing}

theorem lookUpCons (t seen : Expr) (n : Nat) (rest : Counter) :
    lookUp hash sharing t ((seen, n) :: rest) =
      if seen = t then n else lookUp hash sharing t rest := by
  rw [lookUp]
  exact if_congr (sameStructureIff hash sharing seen t) rfl rfl

theorem enterCons (t seen : Expr) (n m : Nat) (rest : Counter) :
    enter hash sharing t n ((seen, m) :: rest) =
      if seen = t then (seen, n) :: rest else (seen, m) :: enter hash sharing t n rest := by
  rw [enter]
  exact if_congr (sameStructureIff hash sharing seen t) rfl rfl

theorem lookUpEnter (t u : Expr) (n : Nat) (c : Counter) :
    lookUp hash sharing u (enter hash sharing t n c) =
      if t = u then n else lookUp hash sharing u c := by
  induction c with
  | nil => exact lookUpCons u t n []
  | cons entry rest ih =>
    obtain ⟨seen, m⟩ := entry
    rw [enterCons]
    split
    · rename_i same
      rw [lookUpCons, lookUpCons, same]
      split <;> rfl
    · rename_i other
      rw [lookUpCons, lookUpCons, ih]
      split
      · rename_i found
        rw [if_neg fun same => other (found.trans same.symm)]
      · rfl

theorem countRecount (c : Counters) (s s' : Signed) (n : Nat) :
    (c.recount hash sharing n s).count hash sharing s' =
      if s = s' then n else c.count hash sharing s' := by
  cases s <;> cases s' <;> simp [Counters.count, Counters.recount, lookUpEnter]

theorem lookUpOffsets (c : Counters) (t : Expr) :
    lookUp hash sharing t (offsets hash sharing c) =
      min (c.count hash sharing (.minus t)) (c.count hash sharing (.plus t)) := by
  obtain ⟨negated, plain⟩ := c
  simp only [offsets, Counters.count]
  induction negated with
  | nil => exact (Nat.zero_min _).symm
  | cons entry rest ih =>
    rw [lookUpCons]
    by_cases none : lookUp hash sharing entry.1 plain = 0
    · have nothing : offset? hash sharing plain entry = .none := if_pos none
      rw [List.filterMap_cons_none nothing, ih]
      split
      · rename_i same
        rw [← same, none, Nat.min_zero, Nat.min_zero]
      · rfl
    · have some : offset? hash sharing plain entry =
          .some (entry.1, min entry.2 (lookUp hash sharing entry.1 plain)) := if_neg none
      rw [List.filterMap_cons_some some, lookUpCons, ih]
      split
      · rename_i same
        rw [same]
      · rfl

def CountsOf (hash : NodeHash) (sharing : Sharing) (c : Counters) (readings : List Signed) : Prop :=
  ∀ s, c.count hash sharing s = readings.count s

variable {c : Counters} {readings : List Signed}

theorem CountsOf.more (counts : CountsOf hash sharing c readings) (s : Signed) :
    CountsOf hash sharing (c.recount hash sharing (c.count hash sharing s + 1) s) (s :: readings) := by
  intro s'
  rw [countRecount, counts, counts, List.count_cons, beq_eq_decide]
  by_cases same : s = s' <;> simp [same]

theorem CountsOf.fewer (counts : CountsOf hash sharing c readings) (s : Signed) :
    CountsOf hash sharing (c.recount hash sharing (c.count hash sharing s - 1) s)
      (readings.erase s) := by
  intro s'
  rw [countRecount, counts, counts, List.count_erase, beq_eq_decide]
  by_cases same : s = s' <;> simp [same]

theorem CountsOf.perm {others : List Signed} (counts : CountsOf hash sharing c readings)
    (same : readings.Perm others) : CountsOf hash sharing c others :=
  fun s => (counts s).trans (same.count_eq s)

theorem talliedCounts (operands : List Expr) :
    CountsOf hash sharing (tallied hash sharing operands) (operands.map Signed.ofExpr) := by
  suffices onward : ∀ (c : Counters) (readings : List Signed), CountsOf hash sharing c readings →
      CountsOf hash sharing (operands.foldl (fun c e =>
        c.recount hash sharing (c.count hash sharing (.ofExpr e) + 1) (.ofExpr e)) c)
        (operands.map Signed.ofExpr ++ readings) by
    have whole := onward ⟨[], []⟩ [] (fun s => by cases s <;> rfl)
    rwa [List.append_nil] at whole
  induction operands with
  | nil => exact fun _ _ counts => counts
  | cons e rest ih =>
    intro c readings counts
    exact (ih _ _ (counts.more (.ofExpr e))).perm List.perm_middle

theorem keepCountedEq {operands : List Expr} (counts : CountsOf hash sharing c readings) :
    keepCounted hash sharing operands c = keep operands readings := by
  induction operands generalizing c readings with
  | nil => rfl
  | cons e rest ih =>
    have going : 0 < c.count hash sharing (.ofExpr e) ↔ Signed.ofExpr e ∈ readings := by
      rw [counts, List.count_pos_iff]
    rw [keepCounted, keep]
    by_cases mem : Signed.ofExpr e ∈ readings
    · rw [if_pos (going.2 mem), if_pos mem, ih (counts.fewer _)]
    · rw [if_neg (mt going.1 mem), if_neg mem, ih counts]

end Counting

def inFavour (t : Expr) (operands : List Expr) : Nat := (operands.map Signed.ofExpr).count (.plus t)

def against (t : Expr) (operands : List Expr) : Nat := (operands.map Signed.ofExpr).count (.minus t)

section Balance

variable {t : Expr} {operands : List Expr}

theorem countOpposites (t : Expr) (operands : List Expr) :
    (opposites operands).count t = min (against t operands) (inFavour t operands) := by
  have minus : ((operands.map Signed.ofExpr).filterMap Signed.minus?).count t = against t operands := by
    rw [List.count, List.countP_filterMap]
    exact List.countP_congr fun s _ => by cases s <;> simp [Signed.minus?]
  have plus : ((operands.map Signed.ofExpr).filterMap Signed.plus?).count t = inFavour t operands := by
    rw [List.count, List.countP_filterMap]
    exact List.countP_congr fun s _ => by cases s <;> simp [Signed.plus?]
  rw [← Multiset.coe_count, opposites, commonInter, Multiset.count_inter, Multiset.coe_count,
    Multiset.coe_count, minus, plus]

theorem countGone (t : Expr) (operands : List Expr) :
    (gone operands).count (.minus t) = min (against t operands) (inFavour t operands) ∧
    (gone operands).count (.plus t) = min (against t operands) (inFavour t operands) := by
  have minusInjective : Function.Injective Signed.minus := fun _ _ same => Signed.minus.inj same
  have plusInjective : Function.Injective Signed.plus := fun _ _ same => Signed.plus.inj same
  have noPlus : ((opposites operands).map Signed.minus).count (.plus t) = 0 :=
    List.count_eq_zero.2 (by simp)
  have noMinus : ((opposites operands).map Signed.plus).count (.minus t) = 0 :=
    List.count_eq_zero.2 (by simp)
  rw [gone, List.count_append, List.count_append, noPlus, noMinus, Nat.add_zero, Nat.zero_add,
    List.count_map_of_injective _ _ minusInjective, List.count_map_of_injective _ _ plusInjective,
    countOpposites]
  exact ⟨rfl, rfl⟩

theorem keptCount (s : Signed) (operands : List Expr) :
    ((cancelled operands).map Signed.ofExpr).count s + (gone operands).count s =
      (operands.map Signed.ofExpr).count s := by
  have readings := congrArg (Multiset.count s) (cancelledReadings operands)
  rwa [Multiset.count_add, Multiset.coe_count, Multiset.coe_count, Multiset.coe_count] at readings

structure Offset (operands kept : List Expr) : Prop where
  part : kept.Sublist operands
  balance : ∀ t, (inFavour t kept : Int) - against t kept = inFavour t operands - against t operands
  settled : ∀ t, inFavour t kept = 0 ∨ against t kept = 0

theorem cancelledOffset (operands : List Expr) : Offset operands (cancelled operands) := by
  have left : ∀ t,
      against t (cancelled operands) + min (against t operands) (inFavour t operands) =
        against t operands ∧
      inFavour t (cancelled operands) + min (against t operands) (inFavour t operands) =
        inFavour t operands := by
    intro t
    obtain ⟨minus, plus⟩ := countGone t operands
    have keptMinus := keptCount (.minus t) operands
    have keptPlus := keptCount (.plus t) operands
    rw [minus] at keptMinus
    rw [plus] at keptPlus
    exact ⟨keptMinus, keptPlus⟩
  refine ⟨keepSublist operands (gone operands), fun t => ?_, fun t => ?_⟩
  · obtain ⟨minus, plus⟩ := left t
    omega
  · obtain ⟨minus, plus⟩ := left t
    omega

end Balance

section Nodes

variable (hash : NodeHash) (sharing : Sharing)

theorem offsetCounts (operands : List Expr) :
    let pairs := offsets hash sharing (tallied hash sharing operands)
    CountsOf hash sharing ⟨pairs, pairs⟩ (gone operands) := by
  intro pairs s
  have counts : CountsOf hash sharing (tallied hash sharing operands) (operands.map Signed.ofExpr) :=
    talliedCounts operands
  have each : ∀ t, lookUp hash sharing t pairs = min (against t operands) (inFavour t operands) := by
    intro t
    rw [lookUpOffsets, counts, counts]
    rfl
  cases s with
  | minus t => exact (each t).trans (countGone t operands).1.symm
  | plus t => exact (each t).trans (countGone t operands).2.symm

theorem countedSum (first second : Expr) (rest : List Expr) :
    countedNode hash sharing (.flat .add first second rest) =
      .join .add (cancelled (first :: second :: rest)) := by
  have counts := offsetCounts hash sharing (first :: second :: rest)
  dsimp only [countedNode] at counts ⊢
  split
  · rename_i empty
    rw [List.isEmpty_iff] at empty
    have none : gone (first :: second :: rest) = [] := by
      refine List.eq_nil_iff_forall_not_mem.2 fun s mem => ?_
      have some := List.count_pos_iff.2 mem
      rw [← counts s, empty] at some
      cases s <;> exact absurd some (Nat.lt_irrefl 0)
    rw [cancelledEq, none, keepAll]
    rfl
  · rw [keepCountedEq counts, cancelledEq]

theorem countedNodeEq (e : Expr) : countedNode hash sharing e = cancelNode e := by
  cases e with
  | flat op first second rest =>
    cases op with
    | add => exact countedSum hash sharing first second rest
    | mul => rfl
  | _ => rfl

end Nodes

section Stability

variable {e t : Expr}

theorem stablePart (part : PartOf t e) (stable : e.bottomUp cancelNode = e) :
    t.bottomUp cancelNode = t := by
  induction part with
  | whole => exact stable
  | @child c e _ mem ih =>
    refine ih ?_
    cases e with
    | const n => cases mem
    | var name => cases mem
    | neg arg =>
      obtain rfl := List.mem_singleton.1 mem
      rw [bottomUpNeg] at stable
      exact Expr.neg.inj stable
    | bin op left right =>
      rw [bottomUpBin] at stable
      obtain ⟨-, onLeft, onRight⟩ := Expr.bin.inj stable
      rcases List.mem_cons.1 mem with rfl | mem
      · exact onLeft
      · obtain rfl := List.mem_singleton.1 mem
        exact onRight
    | flat op first second rest => exact stableOperand stable mem

end Stability

inductive SumOf : List Expr → Expr → Prop where
  | none : SumOf [] (.const 0)
  | one (e : Expr) : SumOf [e] e
  | several (first second : Expr) (rest : List Expr) :
      SumOf (first :: second :: rest) (.flat .add first second rest)

theorem sumOfJoin (es : List Expr) : SumOf es (.join .add es) := by
  match es with
  | [] => exact .none
  | [e] => exact .one e
  | first :: second :: rest => exact .several first second rest

theorem cancellationExact (hash : NodeHash) (sharing : Sharing) :
    (∀ e, countedNode hash sharing e = cancelNode e) ∧
    (∀ first second rest, ∃ kept, Offset (first :: second :: rest) kept ∧
      SumOf kept (cancelNode (.flat .add first second rest))) ∧
    ∀ settings e r, cancelOpposites settings e = .ok r → ∀ first second rest,
      PartOf (.flat .add first second rest) r → ∀ t,
        inFavour t (first :: second :: rest) = 0 ∨ against t (first :: second :: rest) = 0 := by
  refine ⟨countedNodeEq hash sharing, fun first second rest => ?_, ?_⟩
  · exact ⟨_, cancelledOffset _, sumOfJoin _⟩
  · intro settings e r run first second rest part t
    have stable := stablePart part (cancelOppositesStable run)
    have settled := (cancelledOffset (first :: second :: rest)).settled t
    rwa [cancelledAll stable] at settled

def repeatedTerms : Expr :=
  .flat .add (.var "x") (.neg (.const 3)) [.neg (.var "x"), .const 3, .const (-3), .var "x"]

/- Both spellings of a negated constant stand against it. -/
theorem cancellationExactRepeated :
    cancelOpposites {} repeatedTerms = .ok (.flat .add (.const (-3)) (.var "x") []) ∧
    ∀ t, inFavour t [.const (-3), .var "x"] = 0 ∨ against t [.const (-3), .var "x"] = 0 := by
  have run : cancelOpposites {} repeatedTerms = .ok (.flat .add (.const (-3)) (.var "x") []) := by
    decide +kernel
  exact ⟨run, (cancellationExact Node.digest ⟨fun _ => false, nofun⟩).2.2 {} _ _ run _ _ _ (.whole _)⟩

end Normalize

end ArithEquiv
