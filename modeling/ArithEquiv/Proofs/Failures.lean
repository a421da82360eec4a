import ArithEquiv.Proofs.Acceptance
import ArithEquiv.Proofs.Guards
import ArithEquiv.Proofs.Soundness
import ArithEquiv.Proofs.Tidying
import ArithEquiv.Proofs.Tracing

/-! Which failures come out. A loop fails because it is given up or because a step fails, and a tree
worked up from its leaves fails at a node. So normalizing fails by diverging, where the notice of that
cannot be written, or where a constant is computed that has too many digits; reading fails for reasons
of its own. With tracing on, a run may end before that at a line that cannot be laid out. -/
namespace ArithEquiv

open Relation

theorem bindFault {α β : Type} {x : Except Fault α} {f : α → Except Fault β} {fault : Fault}
    (failed : (x >>= f) = .error fault) :
    x = .error fault ∨ ∃ a, x = .ok a ∧ f a = .error fault := by
  cases x with
  | error other =>
    cases failed
    exact .inl rfl
  | ok a => exact .inr ⟨a, rfl, failed⟩

namespace Expr

inductive Handed (f : Expr → Except Fault Expr) : Expr → Expr → Prop where
  | const (value : Int) : Handed f (.const value) (.const value)
  | var (name : String) : Handed f (.var name) (.var name)
  | neg {arg a : Expr} (worked : arg.bottomUpM f = .ok a) : Handed f (.neg arg) (.neg a)
  | bin {op : BinOp} {left right l r : Expr} (onLeft : left.bottomUpM f = .ok l)
      (onRight : right.bottomUpM f = .ok r) : Handed f (.bin op left right) (.bin op l r)
  | flat {op : AssocOp} {first second a b : Expr} {rest more : List Expr}
      (worked : (first :: second :: rest).mapM (bottomUpM f) = .ok (a :: b :: more)) :
      Handed f (.flat op first second rest) (.flat op a b more)
  | within {e part t : Expr} (mem : part ∈ e.children) (inside : Handed f part t) : Handed f e t

theorem bottomUpMArgs (f : Expr → Except Fault Expr) (op : AssocOp) (first second : Expr)
    (rest : List Expr) :
    (Expr.flat op first second rest).bottomUpM f =
      (first :: second :: rest).mapM (bottomUpM f) >>= fun args => f (.join op args) := by
  have each : bottomUpM f = foldM (fun n => f n.build) := rfl
  rw [each, foldMFlat]
  rfl

theorem mapMFault {f : Expr → Except Fault Expr} {es : List Expr} {fault : Fault}
    (failed : es.mapM f = .error fault) : ∃ e ∈ es, f e = .error fault := by
  induction es with
  | nil => cases failed
  | cons e rest ih =>
    rw [List.mapM_cons] at failed
    rcases bindFault failed with failed | ⟨a, _, failed⟩
    · exact ⟨e, by simp, failed⟩
    · rcases bindFault failed with failed | ⟨more, _, impossible⟩
      · obtain ⟨e, mem, failed⟩ := ih failed
        exact ⟨e, by simp [mem], failed⟩
      · cases impossible

theorem handedFault {f : Expr → Except Fault Expr} {e : Expr} {fault : Fault}
    (failed : e.bottomUpM f = .error fault) : ∃ t, Handed f e t ∧ f t = .error fault := by
  have below {e part : Expr} (mem : part ∈ e.children)
      (inside : ∃ t, Handed f part t ∧ f t = .error fault) :
      ∃ t, Handed f e t ∧ f t = .error fault := by
    obtain ⟨t, handed, failed⟩ := inside
    exact ⟨t, .within mem handed, failed⟩
  induction e with
  | const value => exact ⟨_, .const value, by rwa [bottomUpMConst] at failed⟩
  | var name => exact ⟨_, .var name, by rwa [bottomUpMVar] at failed⟩
  | neg arg ih =>
    rw [bottomUpMNeg] at failed
    rcases bindFault failed with failed | ⟨a, worked, failed⟩
    · exact below (by simp [children, node, Node.children]) (ih failed)
    · exact ⟨_, .neg worked, failed⟩
  | bin op left right ihl ihr =>
    rw [bottomUpMBin] at failed
    rcases bindFault failed with failed | ⟨l, onLeft, failed⟩
    · exact below (by simp [children, node, Node.children]) (ihl failed)
    · rcases bindFault failed with failed | ⟨r, onRight, failed⟩
      · exact below (by simp [children, node, Node.children]) (ihr failed)
      · exact ⟨_, .bin onLeft onRight, failed⟩
  | flat op first second rest ihf ihs ihr =>
    have each : ∀ e ∈ first :: second :: rest, e.bottomUpM f = .error fault →
        ∃ t, Handed f e t ∧ f t = .error fault := by
      simpa using ⟨ihf, ihs, ihr⟩
    rw [bottomUpMArgs] at failed
    rcases bindFault failed with failed | ⟨args, worked, failed⟩
    · obtain ⟨e, mem, failed⟩ := mapMFault failed
      exact below mem (each e mem failed)
    · obtain ⟨a, others, _, again, rfl⟩ := List.forall₂_cons_left_iff.1 (mapMOk.1 worked)
      obtain ⟨b, more, _, _, rfl⟩ := List.forall₂_cons_left_iff.1 again
      exact ⟨_, .flat worked, failed⟩

end Expr

namespace Normalize

inductive Exceeds (settings : Settings) : Divergence → Prop where
  | tree {size : Nat} (beyond : settings.maxNodes < size) :
      Exceeds settings (.treeTooLarge size settings.maxNodes)
  | rounds : Exceeds settings (.unstable (max 1 settings.maxIterations).toNat)
  | constant {value : Int} (beyond : settings.maxNodes < 2 * value.natAbs + 1) :
      Exceeds settings (.constantTooLarge value)
  | product {size : Nat} (beyond : settings.maxNodes < size) :
      Exceeds settings (.productTooLarge size settings.maxNodes)

inductive Diverging (settings : Settings) : Fault → Prop where
  | diverged {pass : String} {cause : Divergence} (exceeds : Exceeds settings cause) :
      Diverging settings (.diverged pass cause)
  | unwritten {cause : Divergence} (exceeds : Exceeds settings cause)
      (long : cause.writable = false) : Diverging settings .unwritten

theorem Exceeds.diverging {settings : Settings} {cause : Divergence}
    (exceeds : Exceeds settings cause) (pass : String) : Diverging settings (.givenUp pass cause) := by
  unfold Fault.givenUp
  split
  · exact .diverged exceeds
  · rename_i long
    exact .unwritten exceeds (Bool.not_eq_true _ ▸ long)

section Loops

variable {settings : Settings} {pass : String} {step : Expr → Except Fault Expr} {e : Expr}
  {fault : Fault}

theorem checkSizeFault (failed : checkSize settings pass e = .error fault) :
    Diverging settings fault := by
  unfold checkSize at failed
  split at failed
  · rename_i beyond
    cases failed
    exact (Exceeds.tree beyond).diverging pass
  · cases failed

theorem settleStopped {more : Nat} {previous current : Expr}
    (failed : settle settings pass step more previous current = .error fault) :
    Diverging settings fault ∨ ∃ less, more = less + 1 ∧
      (step current >>= settle settings pass step less current) = .error fault := by
  unfold settle at failed
  split at failed
  · cases failed
  · cases size : checkSize settings pass current with
    | error other =>
      simp only [size] at failed
      cases failed
      exact .inl (checkSizeFault size)
    | ok _ =>
      simp only [size] at failed
      cases more with
      | zero =>
        cases failed
        exact .inl (Exceeds.rounds.diverging pass)
      | succ less => exact .inr ⟨less, rfl, failed⟩

theorem settleFault {more : Nat} {previous current : Expr}
    (failed : settle settings pass step more previous current = .error fault)
    (came : step previous = .ok current) :
    Diverging settings fault ∨
      ∃ t, ReflTransGen (Leads step) previous t ∧ step t = .error fault := by
  induction more generalizing previous current with
  | zero =>
    rcases settleStopped failed with diverging | ⟨less, none, _⟩
    · exact .inl diverging
    · cases none
  | succ more ih =>
    rcases settleStopped failed with diverging | ⟨less, same, failed⟩
    · exact .inl diverging
    cases same
    rcases bindFault failed with failed | ⟨next, stepped, failed⟩
    · exact .inr ⟨current, .single came, failed⟩
    · rcases ih failed stepped with diverging | ⟨t, reached, failed⟩
      · exact .inl diverging
      · exact .inr ⟨t, .head came reached, failed⟩

theorem fixedPointFault (failed : toFixedPoint settings pass step e = .error fault) :
    Diverging settings fault ∨
      ∃ t, ReflTransGen (Leads step) e t ∧ step t = .error fault := by
  rcases bindFault failed with failed | ⟨first, stepped, failed⟩
  · exact .inr ⟨e, .refl, failed⟩
  · exact settleFault failed stepped

end Loops

section Passes

variable {settings : Settings} {pass : String} {e : Expr} {fault : Fault}

theorem sureFault {step : Expr → Except Fault Expr} {P : Expr → Prop} (holds : P e)
    (sure : ∀ {t}, P t → ∃ r, step t = .ok r ∧ P r)
    (failed : toFixedPoint settings pass step e = .error fault) : Diverging settings fault := by
  rcases fixedPointFault failed with diverging | ⟨t, reached, stuck⟩
  · exact diverging
  · have inside : P t := by
      clear stuck
      induction reached with
      | refl => exact holds
      | tail _ next ih =>
        obtain ⟨r, stepped, inside⟩ := sure ih
        cases next.symm.trans stepped
        exact inside
    obtain ⟨r, stepped, _⟩ := sure inside
    cases stuck.symm.trans stepped

theorem pureFault {g : Expr → Expr}
    (failed : toFixedPoint settings pass (fun e => (pure (g e) : Except Fault Expr)) e =
      .error fault) : Diverging settings fault :=
  sureFault (P := fun _ => True) trivial (fun {t} _ => ⟨g t, rfl, trivial⟩) failed

theorem flattenFault (failed : flatten settings e = .error fault) : Diverging settings fault :=
  pureFault failed

theorem takeSignsFault (failed : takeSigns settings e = .error fault) : Diverging settings fault := by
  rcases bindFault failed with failed | ⟨flat, _, failed⟩
  · exact flattenFault failed
  · exact pureFault failed

end Passes

section Computed

variable {settings : Settings} {e : Expr} {n : Int} {fault : Fault}

def combined? : Expr → Option Int
  | .flat op first second rest =>
    some (op.total (((first :: second :: rest).flatMap (spliced op)).filterMap Expr.const?))
  | _ => none

theorem foldConstantsNodeFault (failed : foldConstantsNode e = .error fault) :
    fault = .numeral .tooLong ∧ ∃ n, combined? e = some n ∧ Numeral.fits n = false := by
  cases e with
  | flat op first second rest =>
    unfold foldConstantsNode at failed
    dsimp only at failed
    split at failed
    · cases failed
    · split at failed
      · cases failed
      · rcases bindFault failed with failed | ⟨constant, _, impossible⟩
        · unfold Expr.ofConst at failed
          split at failed
          · cases failed
          · rename_i long
            cases failed
            exact ⟨rfl, _, rfl, by simpa using long⟩
        · cases impossible
  | _ => cases failed

end Computed

end Normalize

section Comparing

variable {settings : Settings} {first second source : String} {j : Journal} {e : Expr} {fault : Fault}

/- A run that gives `x` and enters events of the outermost two levels. -/
def Enters {α : Type} (x : Except Fault α) (t : Traced α) : Prop :=
  ∃ events : List Event, (∀ event ∈ events, event.level ≤ 1) ∧ ∀ j, t j = (x, j.record events)

theorem Enters.bind {α β : Type} {x : Except Fault α} {t : Traced α} {f : α → Traced β}
    {g : α → Except Fault β} (first : Enters x t) (behind : ∀ a, Enters (g a) (f a)) :
    Enters (x >>= g) (t >>= f) := by
  obtain ⟨events, near, run⟩ := first
  cases x with
  | error fault =>
    have stopped := recordedBind f g (fun _ => []) run nofun
    refine ⟨_, ?_, stopped⟩
    rw [following, List.append_nil]
    exact near
  | ok a =>
    obtain ⟨more, nearMore, next⟩ := behind a
    refine ⟨_, fun event mem => ?_, recordedBind f g (fun _ => more) run fun b same => ?_⟩
    · exact (List.mem_append.1 mem).elim (near event) (nearMore event)
    · cases same
      exact next

end Comparing

end ArithEquiv
