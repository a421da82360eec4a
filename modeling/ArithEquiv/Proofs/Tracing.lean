import ArithEquiv.Proofs.Runs

/-! What normalizing enters into the journal, and what is printed of it. Tracing changes neither the
result nor the indentation. While it is on, the tree is entered after each pass, and before two of the
passes what goes on inside them; a run that fails has entered all of this up to where it failed. Only a
margin that cannot be laid out ends a run that would go on without tracing. -/
namespace ArithEquiv

structure Event where
  level : Nat
  label : String
  tree : Expr

namespace Event

def deeper (event : Event) : Event := { event with level := event.level + 1 }

def place (event : Event) : Nat × String := (event.level, event.label)

def entry (j : Journal) (event : Event) : Entry :=
  .trace ⟨j.indentSize, j.depth + event.level⟩ event.label event.tree.render

/-- The line that shows the event. A level is `size` columns wide, and the run began at level `depth`. -/
def line (size depth : Int) (event : Event) : String :=
  let columns := List.replicate (depth + event.level).toNat (List.replicate size.toNat ' ')
  String.ofList columns.flatten ++ event.label ++ " =>\t" ++ event.tree.render ++ "\n"

end Event

def Journal.record (j : Journal) (events : List Event) : Journal :=
  if j.tracing then { j with entries := j.entries ++ (events.map (Event.entry j)).toArray } else j

def following {α β : Type} (x : Except Fault α) (f : α → List β) : List β :=
  match x with
  | .ok a => f a
  | .error _ => []

namespace Journal

variable (j : Journal) (events more : List Event)

theorem recordNothing : j.record [] = j := by
  simp [record]

theorem recordAppend : (j.record events).record more = j.record (events ++ more) := by
  obtain ⟨indentSize, depth, tracing, entries⟩ := j
  cases tracing with
  | false => rfl
  | true =>
    simp only [record, if_true, List.map_append, ← List.append_toArray, Array.append_assoc]
    rfl

theorem recordTrace (label : String) (e : Expr) :
    (j.trace label fun _ => e.render) = j.record [⟨0, label, e⟩] := by
  simp [trace, record, enter, margin, Event.entry]

theorem recordIndented :
    (j.indent.record events).dedent = j.record (events.map Event.deeper) := by
  obtain ⟨indentSize, depth, tracing, entries⟩ := j
  cases tracing with
  | false => rfl
  | true =>
    have entry : Event.entry ⟨indentSize, depth + 1, true, entries⟩ =
        Event.entry ⟨indentSize, depth, true, entries⟩ ∘ Event.deeper := by
      funext event
      simp [Event.entry, Event.deeper, Int.add_assoc, Int.add_comm 1]
    simp [record, indent, dedent, entry]

end Journal

theorem recordedBind {α β : Type} {events : List Event} {x : Except Fault α} {t : Traced α}
    (f : α → Traced β) (g : α → Except Fault β) (more : α → List Event)
    (first : ∀ j, t j = (x, j.record events))
    (behind : ∀ a, x = .ok a → ∀ j, f a j = (g a, j.record (more a))) (j : Journal) :
    (t >>= f : Traced β) j = (x >>= g, j.record (events ++ following x more)) := by
  have unfolded : (t >>= f : Traced β) j = ExceptT.bindCont f (t j).1 (t j).2 := rfl
  rw [unfolded, first]
  cases x with
  | error fault =>
    rw [following, List.append_nil]
    rfl
  | ok a =>
    have continued : ExceptT.bindCont f (.ok a) (j.record events) = f a (j.record events) := rfl
    rw [continued, behind a rfl, Journal.recordAppend]
    rfl

section Printing

variable {α : Type} {events : List Event} {x : Except Fault α} {t : Traced α} {j : Journal}

def Journal.shown (j : Journal) (events : List Event) : List Event :=
  events.takeWhile fun event => (event.entry j).overflow?.isNone

end Printing

/-- A run gives the result and enters the events, and changes nothing else. They are those of a
whole run, up to where it may have failed. -/
structure Shows {α : Type} (whole : List (Nat × String)) (events : List Event)
    (x : Except Fault α) (t : Traced α) : Prop where
  run : ∀ j, t j = (x, j.record events)
  front : events.map Event.place <+: whole
  all : ∀ a, x = .ok a → events.map Event.place = whole

namespace Shows

variable {α β : Type} {whole rest : List (Nat × String)} {events : List Event} {x : Except Fault α}
  {t : Traced α}

theorem nothing (silent : ∀ j, t j = (x, j)) : Shows [] [] x t := by
  refine ⟨fun j => ?_, List.prefix_rfl, fun _ _ => rfl⟩
  rw [silent, Journal.recordNothing]

theorem traced (label : String) (e : Expr) :
    Shows [(0, label)] [⟨0, label, e⟩] (.ok ()) (Traced.trace label e) :=
  ⟨fun j => congrArg (Except.ok (), ·) (j.recordTrace label e), List.prefix_rfl, fun _ _ => rfl⟩

theorem result (shows : Shows whole events x t) : t.result = x :=
  congrArg Prod.fst (shows.run {})

theorem indented (shows : Shows whole events x t) :
    Shows (whole.map fun place => (place.1 + 1, place.2)) (events.map Event.deeper) x
      (Traced.indented t) := by
  have places : (events.map Event.deeper).map Event.place =
      (events.map Event.place).map fun place => (place.1 + 1, place.2) := by
    simp [Event.deeper, Event.place, Function.comp_def]
  refine ⟨fun j => ?_, ?_, fun a ok => ?_⟩
  · unfold Traced.indented
    rw [shows.run]
    exact congrArg (x, ·) (j.recordIndented events)
  · rw [places]
    exact shows.front.map _
  · rw [places, shows.all a ok]

theorem bind {f : α → Traced β} {g : α → Except Fault β} {more : α → List Event}
    (shows : Shows whole events x t)
    (behind : ∀ a, x = .ok a → Shows rest (more a) (g a) (f a)) :
    Shows (whole ++ rest) (events ++ following x more) (x >>= g) (t >>= f) := by
  have run := recordedBind f g more shows.run fun a ok => (behind a ok).run
  cases x with
  | error fault =>
    refine ⟨run, ?_, nofun⟩
    rw [following, List.append_nil]
    exact shows.front.trans (List.prefix_append whole rest)
  | ok a =>
    have next := behind a rfl
    refine ⟨run, ?_, fun b ok => ?_⟩
    · rw [following, List.map_append, shows.all a rfl]
      exact (List.prefix_append_right_inj whole).2 next.front
    · rw [following, List.map_append, shows.all a rfl, next.all b ok]

end Shows

def Pass.result (settings : Settings) (pass : Pass) (e : Expr) : Except Fault Expr :=
  (pass.run settings e).result

namespace Normalize

section Passes

def passed (settings : Settings) : List Pass → Expr → Except Fault Expr
  | [], e => .ok e
  | pass :: rest, e => pass.result settings e >>= passed settings rest

def chronicle (settings : Settings) (passage : Pass → Expr → List Event) :
    List Pass → Expr → List Event
  | [], _ => []
  | pass :: rest, e => passage pass e ++ following (pass.result settings e) fun next =>
      ⟨0, pass.name, next⟩ :: chronicle settings passage rest next

variable {settings : Settings} {passage : Pass → Expr → List Event}

section Several

variable (before : Pass → List (Nat × String)) {front back : List Pass}
  (each : ∀ pass ∈ front, ∀ e,
    Shows (before pass) (passage pass e) (pass.result settings e) (pass.run settings e))

include each

end Several

end Passes

section Driver

variable (settings : Settings) (pass : String) (step : Expr → Except Fault Expr)

/-- The trees a settling step is still applied to after it gave `current` for `previous`. -/
def stepped : (more : Nat) → (previous current : Expr) → List Expr
  | more, previous, current =>
    if previous = current then []
    else
      match checkSize settings pass current, more with
      | .ok (), more + 1 => current :: following (step current) (stepped more current)
      | _, _ => []

def driven (e : Expr) : List Expr :=
  e :: following (step e) (stepped settings pass step (settings.maxIterations - 1).toNat e)

variable {settings pass step} {traced : Expr → Traced Expr} {events : Expr → List Event}
  {group : List (Nat × String)} (each : ∀ e, Shows group (events e) (step e) (traced e))

include each

end Driver

section Events

variable (settings : Settings)

def restructuringEvents (e : Expr) : List Event :=
  (chronicle settings (fun _ _ => []) (restructuring settings) e).map Event.deeper

def roundEvents (e : Expr) : List Event :=
  following (unflatten settings e) fun chains =>
    following (chains.bottomUpM (distributeNode settings)) fun crossed =>
      ⟨0, "Distribute", crossed⟩ :: restructuringEvents settings crossed

def roundTrees (e : Expr) : List Expr :=
  driven settings "Distributive" (distributedOnce settings) e

def passage (pass : Pass) (e : Expr) : List Event :=
  if pass.name = "Distributive" then (roundTrees settings e).flatMap (roundEvents settings)
  else if pass.name = "Normalize" then restructuringEvents settings e
  else []

def rounds (e : Expr) : Nat := (following (prepared settings e) (roundTrees settings)).length

end Events

section Parts

variable (settings : Settings)

def preparing : List Pass :=
  match settings.constants with
  | .fold => [.subToAdd, .negToMul]
  | .expand => [.subToAdd, .constToOnes, .negToMul]

variable {settings} {pass : Pass} {n : Nat}

end Parts

section Story

variable (settings : Settings) (e : Expr)

end Story

example : ((normalForm {} (.var "x")).printed { indentSize := 2 ^ 63, tracing := true }).1 =
    .error (.overflow .count) := by
  decide +kernel

end Normalize

end ArithEquiv
