import ArithEquiv.Proofs.Tidying

/-! The normal form is reached. The tree that the first passes prepare bounds the mass of everything
that distribution makes of it, and that bounds the weight of every later tree, so limits that depend
on the tree and the strategy alone are enough. -/
namespace ArithEquiv

namespace Normalize

open ArithEquiv.Expr

def writtenOut : Expr → Expr
  | .const value => if value < 0 then .neg (ones value.natAbs) else ones value.natAbs
  | e => e

def preparedTree : ConstantStrategy → Expr → Expr
  | .fold, e => negToMul (subToAdd e)
  | .expand, e => negToMul ((subToAdd e).bottomUp writtenOut)

section Preparing

variable {settings : Settings} {e r : Expr} {n : Nat}

def onesCost (value : Int) : Nat := 2 * value.natAbs

theorem constToOnesReturns (room : Roomy settings n) (light : e.burden onesCost ≤ n) :
    constToOnes settings e = .ok (e.bottomUp writtenOut) := by
  unfold constToOnes
  induction e using Expr.byArgs with
  | const value =>
    have own : (Expr.const value).burden onesCost = 2 * value.natAbs + 1 := rfl
    have nodes := room.nodes
    rw [bottomUpMConst, bottomUpConst, constToOnesNode, if_neg (by omega)]
    by_cases negative : value < 0 <;> simp only [writtenOut, negative, if_true, if_false]
  | var name => rw [bottomUpMVar, bottomUpVar]; rfl
  | neg arg ih =>
    have own : (Expr.neg arg).burden onesCost = arg.burden onesCost + 1 := rfl
    rw [bottomUpMNeg, bottomUpNeg, ih (by omega)]
    rfl
  | bin op left right ihl ihr =>
    have own : (Expr.bin op left right).burden onesCost =
        left.burden onesCost + right.burden onesCost + 1 := rfl
    rw [bottomUpMBin, bottomUpBin, ihl (by omega), ihr (by omega)]
    rfl
  | flat op first second rest ih =>
    have whole := burdenFlat onesCost op first second rest
    have part : ∀ e ∈ first :: second :: rest, e.burden onesCost ≤ n := by
      intro e mem
      have inside := List.le_sum_of_mem
        (List.mem_map_of_mem (f := fun e : Expr => e.burden onesCost + 1) mem)
      omega
    have others : rest.mapM (bottomUpM (constToOnesNode settings)) =
        .ok (rest.map (bottomUp writtenOut)) := by
      refine mapMOk.2 (List.forall₂_map_right_iff.2 (List.forall₂_same.2 fun e mem => ?_))
      exact ih e (by simp [mem]) (part e (by simp [mem]))
    rw [bottomUpMFlat, bottomUpFlat, ih first (by simp) (part first (by simp)),
      ih second (by simp) (part second (by simp)), others]
    rfl

theorem preparedReturns {strategy : ConstantStrategy} (chosen : settings.constants = strategy)
    (room : Roomy settings ((subToAdd e).burden onesCost)) :
    prepared settings e = .ok (preparedTree strategy e) := by
  unfold prepared
  rw [chosen]
  cases strategy with
  | fold => rfl
  | expand =>
    dsimp only
    rw [constToOnesReturns room (Nat.le_refl _)]
    rfl

end Preparing

section Pipeline

variable {settings : Settings} {e r : Expr} {n : Nat}

theorem distributedMass (run : distributed settings e = .ok r) : r.mass ≤ e.mass := by
  refine fixedPointKeeps (P := fun t => t.mass ≤ e.mass) (fun before stepped => ?_) run (Nat.le_refl _)
  rcases (distributedOnceOk stepped).2 with less | ⟨_, same⟩
  · exact (Nat.le_of_lt less).trans before
  · exact same.le.trans before

theorem signedReturns (room : Roomy settings n) (rounds : (e.mass + 1) * (e.mass + 3) ≤ n)
    (light : 9 * e.mass ≤ n) : Returns (signed settings e) := by
  refine (distributedReturns (room.mono rounds)).bind fun products distributes => ?_
  have below := weightMass products
  have bounded := distributedMass distributes
  refine (cleanSignsReturns room (by omega)).bind fun signs cleans => ?_
  obtain ⟨plain, heavier⟩ := cleanSignsWeight cleans
  refine (cleanUnitsReturns room plain (by omega)).bind fun units drops => ?_
  have lighter := cleanUnitsWeight plain drops
  exact takeSignsReturns room (by omega)

theorem signedWeight (run : signed settings e = .ok r) : r.weight < 9 * e.mass := by
  obtain ⟨products, distributes, run⟩ := bindOk.1 run
  obtain ⟨signs, cleans, run⟩ := bindOk.1 run
  obtain ⟨units, drops, takes⟩ := bindOk.1 run
  have below := weightMass products
  have bounded := distributedMass distributes
  obtain ⟨plain, heavier⟩ := cleanSignsWeight cleans
  have lighter := cleanUnitsWeight plain drops
  have taken := takeSignsWeight takes
  omega

def demand (start : Expr) : Nat := (start.mass + 1) * (start.mass + 3) + 2 ^ (9 * start.mass)

theorem normalizedReturns {start : Expr} (room : Roomy settings (demand start))
    (prepares : prepared settings e = .ok start) : Returns (normalized settings e) := by
  have power : 9 * start.mass < 2 ^ (9 * start.mass) := Nat.lt_two_pow_self
  have large : 9 * start.mass + 1 ≤ demand start :=
    (Nat.succ_le_of_lt power).trans (Nat.le_add_left _ _)
  have positive := massAtLeast start
  have rounds : (start.mass + 1) * (start.mass + 3) ≤ demand start := Nat.le_add_right _ _
  refine (show Returns (prepared settings e) from .inl ⟨start, prepares⟩).bind fun start' made => ?_
  obtain rfl : start = start' := Except.ok.inj (prepares.symm.trans made)
  refine (signedReturns room rounds (by omega)).bind fun terms signs => ?_
  have few := signedWeight signs
  refine (cancelOppositesReturns room (by omega)).bind fun left cancels => ?_
  have fewer := cancelOppositesLess cancels
  have mass : left.mass < demand start :=
    calc
      left.mass ≤ 2 ^ left.weight := massPower left
      _ ≤ 2 ^ (9 * start.mass) := Nat.pow_le_pow_right Nat.two_pos (by omega)
      _ < demand start := Nat.lt_add_of_pos_left (Nat.mul_pos (Nat.succ_pos _) (Nat.succ_pos _))
  exact restructuredReturns room mass

theorem normalFormConverges (e : Expr) (strategy : ConstantStrategy) :
    ∃ bound : Nat, ∀ settings : Settings, settings.constants = strategy →
      bound ≤ settings.maxIterations → bound ≤ settings.maxNodes → ∀ journal : Journal,
        Returns (normalForm settings e journal).1 ∧ Returns (distribute settings e journal).1 := by
  refine ⟨(subToAdd e).burden onesCost + demand (preparedTree strategy e) +
    (e.mass + 1) * (e.mass + 3), fun settings chosen rounds nodes journal => ?_⟩
  have room : Roomy settings _ := ⟨rounds, nodes⟩
  rw [normalFormGives settings e journal, distributeGives settings e journal]
  have forOnes : Roomy settings ((subToAdd e).burden onesCost) := room.mono (by omega)
  have forPipeline : Roomy settings (demand (preparedTree strategy e)) := room.mono (by omega)
  exact ⟨normalizedReturns forPipeline (preparedReturns chosen forOnes),
    distributedReturns (room.mono (Nat.le_add_left _ _))⟩

end Pipeline

end Normalize

end ArithEquiv
