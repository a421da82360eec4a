import ArithEquiv.Proofs.Locating
import Mathlib.Data.List.TakeWhile
import Mathlib.Logic.Relation
import Mathlib.Order.Bounds.Basic

/-! Which parenthesis closes a group, whatever the tokens are: of those up to the next end mark, the
first behind which as many parentheses are closed as opened. What lies inside is paired in itself, so
that no parenthesis is without its partner where redundant pairs are taken off. -/
namespace ArithEquiv

open Relation

namespace Token

def going (token : Token) : Bool := token.kind != .ending

def count (kind : TokenKind) (tokens : List Token) : Nat := tokens.countP (·.kind == kind)

variable {kind : TokenKind} {token : Token} {tokens : List Token}

theorem countNil : count kind [] = 0 := rfl

theorem countCons :
    count kind (token :: tokens) = (if token.kind = kind then 1 else 0) + count kind tokens := by
  simp [count, List.countP_cons, Nat.add_comm]

theorem countAppend (tokens more : List Token) :
    count kind (tokens ++ more) = count kind tokens + count kind more :=
  List.countP_append

structure Paired (tokens : List Token) : Prop where
  level : count .opening tokens = count .closing tokens
  above : ∀ n, count .closing (tokens.take n) ≤ count .opening (tokens.take n)

def Level (tokens : List Token) (n : Nat) : Prop :=
  0 < n ∧ n ≤ tokens.length ∧ count .opening (tokens.take n) = count .closing (tokens.take n)

instance (tokens : List Token) (n : Nat) : Decidable (Level tokens n) :=
  inferInstanceAs (Decidable (_ ∧ _ ∧ _))

end Token

open Token

namespace Group

structure Steps (depth : Nat) (token : Token) (deeper : Nat) : Prop where
  goes : token.kind ≠ .ending
  shift : ∀ tokens, depth + count .opening (token :: tokens) + count .closing tokens =
    count .closing (token :: tokens) + (deeper + count .opening tokens)

def Above (depth : Nat) (tokens : List Token) : Prop :=
  ∀ n, count .closing (tokens.take n) ≤ depth + count .opening (tokens.take n)

structure Closes (depth : Nat) (tokens : List Token) : Prop where
  goes : ∀ token ∈ tokens, token.kind ≠ .ending
  level : depth + count .opening tokens = count .closing tokens
  above : Above depth tokens

inductive Splits (depth : Nat) (before : List Token) : List Token → Option Group → Prop where
  | found {passed : List Token} {closing : Token} (closes : Closes depth passed)
      (kind : closing.kind = .closing) (after : List Token) :
      Splits depth before (passed ++ closing :: after) (some ⟨before.reverse ++ passed, closing, after⟩)
  | lost {tokens : List Token} (above : Above depth (tokens.takeWhile going)) :
      Splits depth before tokens none

variable {depth deeper : Nat} {token : Token} {before tokens : List Token}

theorem Above.nil : Above depth [] := fun n => by simp [count]

theorem Above.cons (steps : Steps depth token deeper) (above : Above deeper tokens) :
    Above depth (token :: tokens) := by
  rintro (_ | n)
  · exact Nat.zero_le _
  · have := steps.shift (tokens.take n)
    have := above n
    rw [List.take_succ_cons]
    omega

theorem Closes.nil : Closes 0 [] := ⟨nofun, rfl, .nil⟩

theorem Closes.cons (steps : Steps depth token deeper) (closes : Closes deeper tokens) :
    Closes depth (token :: tokens) := by
  refine ⟨List.forall_mem_cons.2 ⟨steps.goes, closes.goes⟩, ?_, closes.above.cons steps⟩
  have := steps.shift tokens
  have := closes.level
  omega

theorem Closes.paired (closes : Closes 0 tokens) : Paired tokens where
  level := by simpa using closes.level
  above n := by simpa using closes.above n

theorem Splits.cons {result : Option Group} (steps : Steps depth token deeper)
    (splits : Splits deeper (token :: before) tokens result) :
    Splits depth before (token :: tokens) result := by
  cases splits with
  | @found passed closing closes kind after =>
    have split : Splits depth before _ _ := .found (closes.cons steps) kind after
    simpa using split
  | lost above =>
    refine .lost ?_
    rw [List.takeWhile_cons_of_pos (by simpa [going] using steps.goes)]
    exact above.cons steps

theorem stepsClosing (kind : token.kind = .closing) : Steps (depth + 1) token depth := by
  refine ⟨by simp [kind], fun tokens => ?_⟩
  simp only [countCons, kind, reduceCtorEq, if_true, if_false]
  omega

theorem stepsOpening (kind : token.kind = .opening) : Steps depth token (depth + 1) := by
  refine ⟨by simp [kind], fun tokens => ?_⟩
  simp only [countCons, kind, reduceCtorEq, if_true, if_false]
  omega

theorem stepsInner (inner : token.kind ≠ .opening ∧ token.kind ≠ .closing ∧ token.kind ≠ .ending) :
    Steps depth token depth := by
  refine ⟨inner.2.2, fun tokens => ?_⟩
  simp only [countCons, inner.1, inner.2.1, if_false]
  omega

theorem splits (depth : Nat) (before tokens : List Token) :
    Splits depth before tokens (split? depth before tokens) := by
  fun_induction split? depth before tokens with
  | case1 => exact .lost .nil
  | case2 _ _ _ _ kind =>
    refine .lost ?_
    rw [List.takeWhile_cons_of_neg (by simp [going, kind])]
    exact .nil
  | case3 before token rest kind =>
    have split : Splits 0 before _ _ := .found .nil kind rest
    simpa using split
  | case4 _ _ _ _ kind ih => exact ih.cons (stepsClosing kind)
  | case5 _ _ _ _ kind ih => exact ih.cons (stepsOpening kind)
  | case6 before token rest depth ending closed closing opening ih =>
    refine ih.cons (stepsInner ⟨opening, fun kind => ?_, ending⟩)
    cases depth with
    | zero => exact closed kind rfl
    | succ depth => exact closing depth kind rfl

theorem Above.unlevel (opening : token.kind = .opening) (above : Above 0 tokens) (n : Nat) :
    ¬ Level (token :: tokens) n := by
  rintro ⟨positive, -, level⟩
  obtain ⟨n, rfl⟩ := Nat.exists_eq_add_one.2 positive
  have := above n
  simp only [List.take_succ_cons, countCons, opening, reduceCtorEq, if_true, if_false] at level
  omega

end Group

namespace Cursor

def ongoing (c : Cursor) : List Token := c.remaining.takeWhile going

def stepped (c : Cursor) (n : Nat) : Cursor :=
  { c with passed := (c.ahead.take n).reverse ++ c.passed, ahead := c.ahead.drop n }

theorem tokensStepped (c : Cursor) (n : Nat) : (c.stepped n).tokens = c.tokens := by
  simp only [tokens, remaining, stepped, List.reverse_append, List.reverse_reverse, List.append_assoc]
  rw [← List.append_assoc (List.take n _), List.take_append_drop]

theorem ongoingAhead (c : Cursor) : c.ongoing = c.ahead.takeWhile going := by
  have last : [c.mark.token].takeWhile going = [] := rfl
  rw [ongoing, remaining, List.takeWhile_append, last, List.append_nil]
  split
  · rename_i long
    exact ((List.takeWhile_prefix going).eq_of_length long).symm
  · rfl

theorem toEndingEq (c : Cursor) : c.toEnding =
    { c with
      passed := (c.ahead.takeWhile going).reverse ++ c.passed
      ahead := c.ahead.dropWhile going } :=
  rfl

theorem toEndingStepped (c : Cursor) : c.toEnding = c.stepped c.ongoing.length := by
  have parts : c.ahead.takeWhile going ++ c.ahead.dropWhile going = c.ahead :=
    List.takeWhile_append_dropWhile
  have front : (c.ahead.takeWhile going ++ c.ahead.dropWhile going).take
      (c.ahead.takeWhile going).length = c.ahead.takeWhile going := List.take_left
  have back : (c.ahead.takeWhile going ++ c.ahead.dropWhile going).drop
      (c.ahead.takeWhile going).length = c.ahead.dropWhile going := List.drop_left
  rw [parts] at front back
  rw [toEndingEq, stepped, ongoingAhead, front, back]

theorem toEndingEnds (c : Cursor) : c.toEnding.isAt .ending := by
  rw [toEndingEq]
  cases rest : c.ahead.dropWhile going with
  | nil => rfl
  | cons token tokens =>
    have ends := List.head?_dropWhile_not going c.ahead
    rw [rest] at ends
    simpa [isAt, peek, going] using ends

theorem peekOpening {c : Cursor} (opens : c.isAt .opening) :
    ∃ rest, c.ahead = c.peek :: rest ∧ c.peek.kind = .opening := by
  obtain ⟨passed, ahead, mark⟩ := c
  cases ahead with
  | nil => cases opens
  | cons opening rest => exact ⟨rest, rfl, by simpa [isAt] using opens⟩

structure Encloses (c : Cursor) (inside : List Token) (closing : Token) (after : List Token) : Prop where
  parts : c.ahead = c.peek :: (inside ++ closing :: after)
  closes : Group.Closes 0 inside
  kind : closing.kind = .closing
  result : enclosed c = (.ok ⟨[], inside, ⟨"EOF", closing.position⟩⟩, c.stepped (inside.length + 2))

theorem enclosedSplits {c : Cursor} (opens : c.isAt .opening) :
    (∃ inside closing after, Encloses c inside closing after) ∨
      ∃ rest, c.ahead = c.peek :: rest ∧ Group.Above 0 (rest.takeWhile going) ∧
        enclosed c = (.error (.parse (.unmatched c.peek.position)), c.toEnding) := by
  obtain ⟨rest, ahead, opening⟩ := peekOpening opens
  have splits := Group.splits 0 [] rest
  cases found : Group.split? 0 [] rest with
  | none =>
    rw [found] at splits
    cases splits with
    | lost above => exact .inr ⟨rest, ahead, above, by simp [enclosed, ahead, opening, found]⟩
  | some group =>
    rw [found] at splits
    cases splits with
    | @found inside closing closes kind after =>
      refine .inl ⟨inside, closing, after, ahead, closes, kind, ?_⟩
      simp [enclosed, ahead, opening, found, stepped, List.take_append,
        List.take_of_length_le (Nat.le_succ inside.length)]

section Ongoing

variable {c : Cursor} {inside after rest : List Token} {closing : Token}

theorem ongoingOpening (opens : c.isAt .opening) (ahead : c.ahead = c.peek :: rest) :
    c.ongoing = c.peek :: rest.takeWhile going := by
  obtain ⟨-, -, opening⟩ := peekOpening opens
  rw [ongoingAhead, ahead, List.takeWhile_cons_of_pos (by simp [going, opening])]

theorem Encloses.ongoing (opens : c.isAt .opening) (encloses : Encloses c inside closing after) :
    c.ongoing = (c.peek :: (inside ++ [closing])) ++ after.takeWhile going := by
  have goes : ∀ token ∈ inside, going token := by simpa [going] using encloses.closes.goes
  have last : going closing := by simp [going, encloses.kind]
  rw [ongoingOpening opens encloses.parts, List.takeWhile_append_of_pos goes,
    List.takeWhile_cons_of_pos last]
  simp

theorem Encloses.ongoingTake (opens : c.isAt .opening) (encloses : Encloses c inside closing after) :
    c.ongoing.take (inside.length + 2) = c.peek :: (inside ++ [closing]) := by
  rw [encloses.ongoing opens, List.take_left' (by simp)]

theorem Encloses.least (opens : c.isAt .opening) (encloses : Encloses c inside closing after) :
    IsLeast {n | Level c.ongoing n} (inside.length + 2) := by
  obtain ⟨-, -, opening⟩ := peekOpening opens
  constructor
  · have level := encloses.closes.level
    refine ⟨Nat.succ_pos _, by simp [encloses.ongoing opens], ?_⟩
    rw [encloses.ongoingTake opens]
    simp only [countCons, countAppend, countNil, opening, encloses.kind, reduceCtorEq, if_true, if_false]
    omega
  · intro n level
    by_contra short
    have short : n ≤ (c.peek :: inside).length := by simpa using Nat.lt_succ_iff.1 (not_le.1 short)
    refine encloses.closes.above.unlevel opening n ⟨level.1, short, ?_⟩
    have level := level.2.2
    rwa [encloses.ongoing opens, ← List.cons_append, List.append_assoc,
      List.take_append_of_le_length short] at level

structure Sound (g : Cursor) : Prop where
  start : g.passed = []
  goes : ∀ token ∈ g.ahead, token.kind ≠ .ending
  paired : Paired g.ahead

theorem Encloses.sound (encloses : Encloses c inside closing after) (mark : EndMark) :
    Sound ⟨[], inside, mark⟩ :=
  ⟨rfl, encloses.closes.goes, encloses.closes.paired⟩

theorem ofTokensTokens (c : Cursor) : ofTokens c.tokens none = c.rewind := by
  simp [ofTokens, tokens, remaining, EndMark.token, rewind]

theorem Sound.rewound {g : Cursor} (sound : Sound g) : ofTokens g.tokens none = g := by
  obtain ⟨passed, ahead, mark⟩ := g
  cases sound.start
  exact ofTokensTokens _

theorem Sound.encloses {g : Cursor} (sound : Sound g) (opens : g.isAt .opening) :
    ∃ inside closing after, Encloses g inside closing after := by
  rcases enclosedSplits opens with found | ⟨rest, ahead, above, -⟩
  · exact found
  · obtain ⟨-, -, opening⟩ := peekOpening opens
    have goes : rest.takeWhile going = rest := List.takeWhile_eq_self_iff.2 fun token mem => by
      simpa [going] using sound.goes token (by rw [ahead]; exact List.mem_cons_of_mem _ mem)
    have level := sound.paired.level
    rw [goes] at above
    have above := above rest.length
    rw [ahead] at level
    simp only [countCons, opening, reduceCtorEq, if_true, if_false, List.take_length] at level above
    omega

end Ongoing

end Cursor

namespace Parse

open Cursor

def Round (g inner : Cursor) : Prop :=
  g.isAt .opening ∧ ∃ outer, Cursor.enclosed (Cursor.ofTokens g.tokens none) = (.ok inner, outer) ∧
    outer.isAt .ending

theorem roundEncloses {g q : Cursor} {inside after : List Token} {closing : Token}
    (sound : Sound g) (opens : g.isAt .opening) (encloses : Encloses g inside closing after) :
    Round g q ↔
      q = ⟨[], inside, ⟨"EOF", closing.position⟩⟩ ∧ (g.stepped (inside.length + 2)).isAt .ending := by
  rw [Round, sound.rewound, encloses.result]
  constructor
  · rintro ⟨-, outer, pair, ended⟩
    cases pair
    exact ⟨rfl, ended⟩
  · rintro ⟨rfl, ended⟩
    exact ⟨opens, _, rfl, ended⟩

theorem Round.sound {g inner : Cursor} (sound : Sound g) (round : Round g inner) : Sound inner := by
  obtain ⟨inside, closing, after, encloses⟩ := sound.encloses round.1
  rw [((roundEncloses sound round.1 encloses).1 round).1]
  exact encloses.sound _

theorem soundRounds {g inner : Cursor} (sound : Sound g) (rounds : ReflTransGen Round g inner) :
    Sound inner := by
  induction rounds with
  | refl => exact sound
  | tail _ round ih => exact round.sound ih

theorem peelRounds (bound : List Token) {g : Cursor} (sound : Sound g)
    (enough : g.ahead.length ≤ bound.length) :
    ∃ p, peel bound g = .ok p ∧ ReflTransGen Round g p ∧ ¬ ∃ q, Round p q := by
  induction bound generalizing g with
  | nil =>
    refine ⟨g, rfl, .refl, ?_⟩
    rintro ⟨q, opens, -⟩
    obtain ⟨rest, ahead, -⟩ := peekOpening opens
    simp [ahead] at enough
  | cons b bound ih =>
    cases opens : g.isAt .opening with
    | false =>
      refine ⟨g, by simp [peel, opens], .refl, ?_⟩
      rintro ⟨q, opened, -⟩
      simp [opens] at opened
    | true =>
      obtain ⟨inside, closing, after, encloses⟩ := sound.encloses opens
      have round q := roundEncloses (q := q) sound opens encloses
      rw [peel, if_pos opens, encloses.result]
      cases ended : (g.stepped (inside.length + 2)).isAt .ending with
      | false =>
        refine ⟨g, by simp [ended], .refl, ?_⟩
        rintro ⟨q, again⟩
        simp [round, ended] at again
      | true =>
        have fewer : inside.length ≤ bound.length := by
          simp only [encloses.parts, List.length_cons, List.length_append] at enough
          omega
        obtain ⟨p, peeled, rounds, last⟩ := ih (encloses.sound ⟨"EOF", closing.position⟩) fewer
        exact ⟨p, by simpa [ended] using peeled, .head ((round _).2 ⟨rfl, ended⟩) rounds, last⟩

end Parse

namespace Cursor

open Parse

theorem groupsMatched {c : Cursor} (opens : c.isAt .opening) :
    (∀ n, IsLeast {n | Level c.ongoing n} n → ∃ inside closing p,
      let group : Cursor := ⟨[], inside, ⟨"EOF", closing.position⟩⟩
      c.ongoing.take n = c.peek :: (inside ++ [closing]) ∧ closing.kind = .closing ∧ Paired inside ∧
      Cursor.enclosed c = (.ok group, c.stepped n) ∧ (c.stepped n).tokens = c.tokens ∧
      (∀ g, ReflTransGen Round group g → g.isAt .opening →
        ∃ inner outer, Cursor.enclosed (Cursor.ofTokens g.tokens none) = (.ok inner, outer)) ∧
      ReflTransGen Round group p ∧ (¬ ∃ q, Round p q) ∧
      ∀ read, Parse.group read c = (read c.peek p, c.stepped n)) ∧
    ((¬ ∃ n, Level c.ongoing n) →
      let ended := c.stepped c.ongoing.length
      Cursor.enclosed c = (.error (.parse (.unmatched c.peek.position)), ended) ∧
      ended.isAt .ending ∧ ended.tokens = c.tokens) := by
  rcases enclosedSplits opens with ⟨inside, closing, after, encloses⟩ | ⟨rest, ahead, above, refused⟩
  · have least := encloses.least opens
    refine ⟨fun n first => ?_, fun none => absurd ⟨_, least.1⟩ none⟩
    obtain rfl := first.unique least
    have sound := encloses.sound ⟨"EOF", closing.position⟩
    obtain ⟨p, peeled, rounds, last⟩ := peelRounds inside sound (Nat.le_refl _)
    refine ⟨inside, closing, p, encloses.ongoingTake opens, encloses.kind, encloses.closes.paired,
      encloses.result, tokensStepped c _, fun g reached opened => ?_, rounds, last, fun read => ?_⟩
    · have sound := soundRounds sound reached
      obtain ⟨inside, closing, after, encloses⟩ := sound.encloses opened
      exact ⟨_, _, sound.rewound.symm ▸ encloses.result⟩
    · rw [groupEnclosed encloses.result, peeled]
      rfl
  · have none n : ¬ Level c.ongoing n := by
      rw [ongoingOpening opens ahead]
      exact above.unlevel (peekOpening opens).choose_spec.2 n
    refine ⟨fun n first => absurd first.1 (none n), fun _ => ?_⟩
    rw [← toEndingStepped]
    exact ⟨refused, toEndingEnds c, tokensToEnding c⟩

def doubled : Cursor :=
  ofTokens [⟨.opening, "(", 0⟩, ⟨.opening, "(", 1⟩, ⟨.name, "x", 2⟩, ⟨.closing, ")", 3⟩,
    ⟨.closing, ")", 4⟩, ⟨.ending, "EOF", 5⟩, ⟨.closing, ")", 6⟩] none

/-- A parenthesis that only another one behind an end mark would close. -/
def severed : Cursor :=
  ofTokens [⟨.opening, "(", 0⟩, ⟨.name, "x", 1⟩, ⟨.ending, "EOF", 2⟩, ⟨.closing, ")", 3⟩] none

theorem groupsMatchedDoubled :
    doubled.isAt .opening ∧ IsLeast {n | Level doubled.ongoing n} 5 ∧
      (∃ p, ReflTransGen Round ⟨[], (doubled.ahead.drop 1).take 3, ⟨"EOF", 4⟩⟩ p ∧
        ∀ read, Parse.group read doubled = (read doubled.peek p, doubled.stepped 5)) ∧
      severed.isAt .opening ∧ (¬ ∃ n, Level severed.ongoing n) ∧
      Cursor.enclosed severed = (.error (.parse (.unmatched 0)), severed.stepped 2) := by
  have least : IsLeast {n | Level doubled.ongoing n} 5 := by
    have short : ∀ n < 5, ¬ Level doubled.ongoing n := by decide
    exact ⟨by decide, fun n level => not_lt.1 fun less => short n less level⟩
  have none : ¬ ∃ n, Level severed.ongoing n := by
    have short : ∀ n < 3, ¬ Level severed.ongoing n := by decide
    exact fun ⟨n, level⟩ => short n (Nat.lt_succ_of_le level.2.1) level
  obtain ⟨inside, closing, p, parts, -, -, -, -, -, rounds, -, read⟩ :=
    (groupsMatched (c := doubled) (by decide)).1 5 least
  have same : (doubled.ahead.drop 1).take 3 ++ [⟨.closing, ")", 4⟩] = inside ++ [closing] :=
    (List.cons.inj parts).2
  obtain ⟨rfl, last⟩ := List.append_inj' same rfl
  cases last
  have refused := ((groupsMatched (c := severed) (by decide)).2 none).1
  exact ⟨by decide, least, ⟨p, rounds, read⟩, by decide, none, refused⟩

end Cursor

end ArithEquiv
