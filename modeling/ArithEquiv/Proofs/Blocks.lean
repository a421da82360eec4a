import ArithEquiv.Journal.Program
import Mathlib.Data.List.Basic

/-! What a program does to the journal it writes into, one act after another. Every block that is
opened is closed, the innermost one first, also where a step inside it fails; so each box has both its
rules. Entering and leaving an indented block move the margin only while tracing is on, so leaving it
takes back what entering it did just if tracing is then on or off as it was before. Where this is so
of all blocks, only the other steps have moved the margin. -/
namespace ArithEquiv.Journal

inductive Block where
  | indented
  | ruled
  deriving DecidableEq, Repr

namespace Block

def step : Block → List Step → Step
  | .indented => .indented
  | .ruled => .ruled

def enter : Block → Journal → Journal
  | .indented, j => j.indent
  | .ruled, j => j.rule ruleWidth

def leave : Block → Journal → Journal
  | .indented, j => j.dedent
  | .ruled, j => j.rule ruleWidth

end Block

def Step.plain : Step → Bool
  | .indented _ | .ruled _ => false
  | _ => true

@[elab_as_elim]
theorem byBlocks {P : Step → Prop} (plain : ∀ step : Step, step.plain → P step)
    (block : ∀ (block : Block) body, (∀ step ∈ body, P step) → P (block.step body))
    (step : Step) : P step := by
  cases step with
  | indented body => exact block .indented body fun step _ => byBlocks plain block step
  | ruled body => exact block .ruled body fun step _ => byBlocks plain block step
  | _ => exact plain _ rfl

inductive Act where
  | did (step : Step)
  | opened (block : Block)
  | closed (block : Block)
  deriving Repr

def Act.on (j : Journal) : Act → Journal
  | .did step => (run step j).2
  | .opened block => block.enter j
  | .closed block => block.leave j

def after (j : Journal) (acts : List Act) : Journal := acts.foldl Act.on j

def Block.around (block : Block) (inside : List Act) : List Act :=
  .opened block :: (inside ++ [.closed block])

mutual

def course : Step → Outcome × List Act
  | .indented body => ((courses body).1, Block.indented.around (courses body).2)
  | .ruled body => ((courses body).1, Block.ruled.around (courses body).2)
  | .fail => (.failed, [.did .fail])
  | step => (.finished, [.did step])

def courses : List Step → Outcome × List Act
  | [] => (.finished, [])
  | step :: rest =>
    match course step with
    | (.finished, acts) => ((courses rest).1, acts ++ (courses rest).2)
    | (.failed, acts) => (.failed, acts)

end

section Replay

variable {steps : List Step} (j : Journal)

theorem afterAppend (acts more : List Act) : j.after (acts ++ more) = (j.after acts).after more :=
  List.foldl_append

theorem afterAround (block : Block) (inside : List Act) :
    j.after (block.around inside) = block.leave ((block.enter j).after inside) :=
  afterAppend (block.enter j) inside [.closed block]

theorem coursePlain {step : Step} (plain : step.plain) :
    course step = ((run step j).1, [.did step]) := by
  cases step with
  | indented body => cases plain
  | ruled body => cases plain
  | _ => rfl

theorem courseBlock (block : Block) (body : List Step) :
    course (block.step body) = ((courses body).1, block.around (courses body).2) := by
  cases block <;> rfl

theorem runBlock (block : Block) (body : List Step) : run (block.step body) j =
    ((runAll body (block.enter j)).1, block.leave (runAll body (block.enter j)).2) := by
  cases block <;> rfl

theorem runAllCourses
    (each : ∀ step ∈ steps, ∀ j, run step j = ((course step).1, j.after (course step).2)) :
    runAll steps j = ((courses steps).1, j.after (courses steps).2) := by
  induction steps generalizing j with
  | nil => rfl
  | cons step rest ih =>
    rw [runAll, courses, each step (by simp)]
    obtain ⟨outcome, acts⟩ := course step
    cases outcome with
    | finished =>
      simp only [afterAppend]
      exact ih _ fun step mem => each step (by simp [mem])
    | failed => rfl

theorem runCourse (step : Step) : run step j = ((course step).1, j.after (course step).2) := by
  induction step using byBlocks generalizing j with
  | plain step plain =>
    rw [coursePlain j plain]
    rfl
  | block block body ih => rw [runBlock, courseBlock, runAllCourses _ ih, afterAround]

end Replay

inductive Balanced : List Act → Prop where
  | nil : Balanced []
  | did {step : Step} {rest : List Act} (plain : step.plain) (others : Balanced rest) :
      Balanced (.did step :: rest)
  | block (block : Block) {inside rest : List Act} (within : Balanced inside)
      (others : Balanced rest) : Balanced (block.around inside ++ rest)

section Balance

variable {acts more inside before behind : List Act} {block : Block} {steps : List Step}

theorem aroundAppend (block : Block) (inside rest : List Act) :
    block.around inside ++ rest = .opened block :: (inside ++ .closed block :: rest) := by
  simp [Block.around]

theorem Balanced.append (first : Balanced acts) (others : Balanced more) : Balanced (acts ++ more) := by
  induction first with
  | nil => exact others
  | did plain _ ih => exact .did plain ih
  | block block within _ _ ih =>
    rw [List.append_assoc]
    exact .block block within ih

theorem Balanced.around (within : Balanced inside) (block : Block) : Balanced (block.around inside) := by
  have alone := Balanced.block block within .nil
  rwa [List.append_nil] at alone

theorem balancedCourses (each : ∀ step ∈ steps, Balanced (course step).2) :
    Balanced (courses steps).2 := by
  induction steps with
  | nil => exact .nil
  | cons step rest ih =>
    have first := each step (by simp)
    rw [courses]
    generalize course step = result at first
    obtain ⟨outcome, acts⟩ := result
    cases outcome with
    | finished => exact first.append (ih fun step mem => each step (by simp [mem]))
    | failed => exact first

theorem balancedCourse (step : Step) : Balanced (course step).2 := by
  induction step using byBlocks with
  | plain step plain =>
    rw [coursePlain {} plain]
    exact .did plain .nil
  | block block body ih =>
    rw [courseBlock]
    exact (balancedCourses ih).around block

theorem Balanced.closes (balanced : Balanced acts) (split : acts = before ++ .opened block :: behind) :
    ∃ inside rest, behind = inside ++ .closed block :: rest ∧ Balanced inside := by
  induction balanced generalizing before behind with
  | nil => simp at split
  | did _ _ ih =>
    cases before with
    | nil => cases split
    | cons act before => exact ih (List.cons.inj split).2
  | @block outer inside rest within _ ihInside ihRest =>
    rw [aroundAppend] at split
    cases before with
    | nil =>
      cases split
      exact ⟨inside, rest, rfl, within⟩
    | cons act before =>
      -- It is opened behind the first block, or inside it.
      rcases List.append_eq_append_iff.1 (List.cons.inj split).2 with
        ⟨passed, -, same⟩ | ⟨passed, onInside, same⟩
      · cases passed with
        | nil => cases same
        | cons act passed => exact ihRest (List.cons.inj same).2
      · cases passed with
        | nil => cases same
        | cons act passed =>
          obtain ⟨rfl, rfl⟩ := List.cons.inj same
          obtain ⟨inner, later, rfl, balanced⟩ := ihInside onInside
          exact ⟨inner, later ++ .closed outer :: rest, by simp, balanced⟩

end Balance

/-- What the acts that are done while tracing is on weigh together. The margin is moved by steps, which
weigh as `Act.shift` says, and by the ends of indented blocks, as `Act.edge` says. -/
def moved (weight : Act → Int) : Journal → List Act → Int
  | _, [] => 0
  | j, act :: rest => (if j.tracing then weight act else 0) + moved weight (act.on j) rest

namespace Act

def shift : Act → Int
  | .did .indent => 1
  | .did .dedent => -1
  | _ => 0

def edge : Act → Int
  | .opened .indented => 1
  | .closed .indented => -1
  | _ => 0

end Act

inductive Steady : Journal → List Act → Prop where
  | nil (j : Journal) : Steady j []
  | did {j : Journal} {step : Step} {rest : List Act} (others : Steady (run step j).2 rest) :
      Steady j (.did step :: rest)
  | block {j : Journal} {block : Block} {inside rest : List Act}
      (within : Steady (block.enter j) inside)
      (same : block = .indented → ((block.enter j).after inside).tracing = j.tracing)
      (others : Steady (j.after (block.around inside)) rest) :
      Steady j (block.around inside ++ rest)

section Margin

variable {j : Journal} {acts inside : List Act}

theorem movedAppend (weight : Act → Int) (j : Journal) (acts more : List Act) :
    j.moved weight (acts ++ more) = j.moved weight acts + (j.after acts).moved weight more := by
  induction acts generalizing j with
  | nil => simp [moved, after]
  | cons act rest ih =>
    rw [List.cons_append, moved, moved, ih, Int.add_assoc]
    rfl

theorem movedAround (weight : Act → Int) (j : Journal) (block : Block) (inside : List Act) :
    j.moved weight (block.around inside) =
      (if j.tracing then weight (.opened block) else 0) + (block.enter j).moved weight inside +
        if ((block.enter j).after inside).tracing then weight (.closed block) else 0 := by
  rw [Block.around, moved, movedAppend, moved, moved, Int.add_zero, Int.add_assoc]
  rfl

theorem Steady.edges (steady : Steady j acts) : j.moved Act.edge acts = 0 := by
  induction steady with
  | nil => rfl
  | did _ ih => simpa [moved, Act.edge, Act.on] using ih
  | @block j block inside rest _ same _ ihInside ihRest =>
    rw [movedAppend, movedAround, ihInside, ihRest]
    cases block with
    | indented =>
      rw [same rfl]
      simp only [Act.edge]
      split <;> rfl
    | ruled => simp [Act.edge]

theorem Steady.around {block : Block} (within : Steady (block.enter j) inside)
    (same : block = .indented → ((block.enter j).after inside).tracing = j.tracing) :
    Steady j (block.around inside) := by
  have alone := Steady.block within same (.nil _)
  rwa [List.append_nil] at alone

end Margin

structure Reaches (j : Journal) (n : Int) (k : Journal) : Prop where
  depth : k.depth = j.depth + n
  entries : ∃ lines, k.entries = j.entries ++ lines

section Effects

variable {j k l : Journal} {m n : Int} {acts inside : List Act}

theorem Reaches.silent (depth : k.depth = j.depth + n) (entries : k.entries = j.entries) :
    Reaches j n k :=
  ⟨depth, #[], by simp [entries]⟩

theorem Reaches.entry (j : Journal) (entry : Entry) : Reaches j 0 (j.enter entry) :=
  ⟨(Int.add_zero _).symm, #[entry], rfl⟩

theorem Reaches.trans (first : Reaches j m k) (second : Reaches k n l) : Reaches j (m + n) l := by
  obtain ⟨lines, added⟩ := first.entries
  obtain ⟨more, addedMore⟩ := second.entries
  refine ⟨?_, lines ++ more, ?_⟩
  · rw [second.depth, first.depth, Int.add_assoc]
  · rw [addedMore, added, Array.append_assoc]

theorem Reaches.level (reaches : Reaches j 0 k) : Reaches j (if j.tracing then 0 else 0) k := by
  rwa [ite_self]

theorem reachesIndent (j : Journal) : Reaches j (if j.tracing then 1 else 0) j.indent := by
  unfold indent
  split
  · exact .silent rfl rfl
  · exact .silent (Int.add_zero _).symm rfl

theorem reachesDedent (j : Journal) : Reaches j (if j.tracing then -1 else 0) j.dedent := by
  unfold dedent
  split
  · exact .silent Int.sub_eq_add_neg rfl
  · exact .silent (Int.add_zero _).symm rfl

theorem reachesPlain {step : Step} (plain : step.plain) (j : Journal) :
    Reaches j (if j.tracing then (Act.did step).shift else 0) (run step j).2 := by
  cases step with
  | indented body => cases plain
  | ruled body => cases plain
  | indent => exact reachesIndent j
  | dedent => exact reachesDedent j
  | trace label value =>
    refine .level ?_
    simp only [run, trace]
    split
    · exact .entry j _
    · exact .silent (Int.add_zero _).symm rfl
  | line text => exact .level (.entry j _)
  | title text => exact .level (((Reaches.entry j _).trans (.entry _ _)).trans (.entry _ _))
  | rule width => exact .level (.entry j _)
  | setTracing on => exact .level (.silent (Int.add_zero _).symm rfl)
  | fail => exact .level (.silent (Int.add_zero _).symm rfl)

theorem reachesEnter (block : Block) (j : Journal) :
    Reaches j (if j.tracing then (Act.opened block).edge else 0) (block.enter j) := by
  cases block with
  | indented => exact reachesIndent j
  | ruled => exact .level (.entry j _)

theorem reachesLeave (block : Block) (j : Journal) :
    Reaches j (if j.tracing then (Act.closed block).edge else 0) (block.leave j) := by
  cases block with
  | indented => exact reachesDedent j
  | ruled => exact .level (.entry j _)

theorem Balanced.reaches (balanced : Balanced acts) (j : Journal) :
    Reaches j (j.moved Act.shift acts + j.moved Act.edge acts) (j.after acts) := by
  induction balanced generalizing j with
  | nil => exact .silent (Int.add_zero _).symm rfl
  | @did step rest plain _ ih =>
    have whole := (reachesPlain plain j).trans (ih (run step j).2)
    simp only [moved, Act.on, Act.edge, ite_self, Int.zero_add, Int.add_assoc]
    exact whole
  | block block _ _ ihInside ihRest =>
    have within := (reachesEnter block j).trans (ihInside (block.enter j))
    have whole := (within.trans (reachesLeave block _)).trans (ihRest _)
    rw [afterAppend, afterAround]
    convert whole using 1
    simp only [movedAppend, movedAround, afterAround, Act.shift, ite_self]
    omega

end Effects

/-- What leaving a block makes of the journal `j` on which it was entered. Where indented blocks are
entered with tracing on and left with it off, or the other way round, the margin keeps the difference. -/
structure Leaves (block : Block) (j : Journal) (inside : List Act) : Prop where
  undoes : block = .indented →
    ((block.leave ((block.enter j).after inside)).depth - ((block.enter j).after inside).depth =
        j.depth - (block.enter j).depth ↔
      ((block.enter j).after inside).tracing = j.tracing)
  depth : (j.after (block.around inside)).depth =
    j.depth + (block.enter j).moved Act.shift inside + j.moved Act.edge (block.around inside)
  steady : Steady j (block.around inside) →
    (j.after (block.around inside)).depth = j.depth + (block.enter j).moved Act.shift inside
  rules : block = .ruled → ∃ lines,
    ((block.enter j).after inside).entries = j.entries.push (.rule ruleWidth.toNat) ++ lines ∧
    (j.after (block.around inside)).entries =
      (j.entries.push (.rule ruleWidth.toNat) ++ lines).push (.rule ruleWidth.toNat)

theorem Balanced.leaves {inside : List Act} (within : Balanced inside) (block : Block) (j : Journal) :
    Leaves block j inside := by
  have depth := ((within.around block).reaches j).depth
  have shift : j.moved Act.shift (block.around inside) = (block.enter j).moved Act.shift inside := by
    simp [movedAround, Act.shift]
  rw [shift, ← Int.add_assoc] at depth
  refine ⟨?_, depth, fun steady => ?_, ?_⟩
  · rintro rfl
    rw [(reachesLeave .indented _).depth, (reachesEnter .indented j).depth]
    generalize (Block.indented.enter j).after inside = body
    have entered (d : Int) : d - (d + 1) = -1 := by omega
    have left (d : Int) : d + -1 - d = -1 := by omega
    cases j.tracing <;> cases body.tracing <;> simp [Act.edge, entered, left]
  · rw [depth, steady.edges, Int.add_zero]
  · rintro rfl
    obtain ⟨lines, added⟩ := (within.reaches (Block.ruled.enter j)).entries
    refine ⟨lines, added, ?_⟩
    rw [afterAround]
    exact congrArg (Array.push · (.rule ruleWidth.toNat)) added

theorem blocksBalanced (steps : List Step) (j : Journal) :
    runAll steps j = ((courses steps).1, j.after (courses steps).2) ∧
    Balanced (courses steps).2 ∧
    (∀ before block behind, (courses steps).2 = before ++ .opened block :: behind →
      ∃ inside rest, behind = inside ++ .closed block :: rest ∧ Balanced inside) ∧
    ∀ before block inside rest, (courses steps).2 = before ++ (block.around inside ++ rest) →
      Balanced inside → Leaves block (j.after before) inside := by
  have balanced : Balanced (courses steps).2 := balancedCourses fun step _ => balancedCourse step
  refine ⟨runAllCourses j fun step _ j => runCourse j step, balanced, ?_, ?_⟩
  · exact fun before block behind split => balanced.closes split
  · exact fun before block inside rest _ within => within.leaves block (j.after before)

def traced : Journal := { tracing := true }

def interrupted : List Step :=
  [.indented [.indent, .ruled [.setTracing false, .dedent, .setTracing true, .fail], .dedent],
    .line "never"]

def interruptedInside : List Act :=
  .did .indent ::
    Block.ruled.around [.did (.setTracing false), .did .dedent, .did (.setTracing true), .did .fail]

theorem blocksBalancedInterrupted :
    (courses interrupted).2 = [] ++ (Block.indented.around interruptedInside ++ []) ∧
    Balanced interruptedInside ∧ Steady traced (Block.indented.around interruptedInside) ∧
    runAll interrupted traced =
      (.failed, traced.after (Block.indented.around interruptedInside)) ∧
    (traced.after (Block.indented.around interruptedInside)).depth = 1 := by
  have balanced : Balanced interruptedInside :=
    .did rfl (.around (.did rfl (.did rfl (.did rfl (.did rfl .nil)))) .ruled)
  have steady : Steady traced (Block.indented.around interruptedInside) :=
    .around (.did (.around (.did (.did (.did (.did (.nil _))))) nofun)) fun _ => rfl
  obtain ⟨ran, -, -, leaves⟩ := blocksBalanced interrupted traced
  have left := leaves [] .indented interruptedInside [] rfl balanced
  exact ⟨rfl, balanced, steady, ran, left.steady steady⟩

def switchedOff : List Step := [.indented [.setTracing false]]

/- Tracing is switched off inside. The margin stays where entering the block has put it, though no
step has moved it. -/
theorem marginStays :
    (courses switchedOff).2 = Block.indented.around [.did (.setTracing false)] ∧
    let body := (Block.indented.enter traced).after [.did (.setTracing false)]
    (runAll switchedOff traced).2 = Block.indented.leave body ∧
    ¬(Block.indented.leave body).depth - body.depth = traced.depth - (Block.indented.enter traced).depth ∧
    ¬(Block.indented.leave body).depth =
      traced.depth + (Block.indented.enter traced).moved Act.shift [.did (.setTracing false)] :=
  ⟨rfl, rfl, by decide, by decide⟩

end ArithEquiv.Journal
