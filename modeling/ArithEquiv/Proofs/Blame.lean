import ArithEquiv.Proofs.Parentheses
import ArithEquiv.Proofs.Prefixes
import ArithEquiv.Proofs.Reading

/-! Why reading stops. It does at the first token that no sentence has there, at a parenthesis
without its partner, at a group too deep or at a numeral too long. What is wrong inside a group is
wrong where the group stands. -/
namespace ArithEquiv.Parse

open Token

structure Scanned (tokens : List Token) : Prop where
  going : ∀ token ∈ tokens, token.kind ≠ .ending
  valued : ∀ token ∈ tokens, token.kind = .numeral → token.value =
    if token.text.length ≤ Numeral.maxDigits then .ok (decimal token.text : Int)
    else .error (.numeral .tooLong)
  lexical : Lexical tokens

theorem Scanned.within {tokens tokens' : List Token} (scanned : Scanned tokens')
    (sub : tokens ⊆ tokens') : Scanned tokens :=
  ⟨fun token mem => scanned.going token (sub mem), fun token mem => scanned.valued token (sub mem),
    scanned.lexical.sub sub⟩

theorem scannedTokens (source : String) : Scanned (scan source) :=
  ⟨fun _ => scannedKind, fun _ => scannedNumeral, scannedLexical source⟩

section Levels

variable {n m : Nat} {a next : Awaited} {token : Token} {tokens : List Token} {t : Tier}

theorem stepOpened {p : Progress} (stepped : Progress.step ⟨n, a⟩ token = some p) :
    match token.kind with
    | .opening => p.opened = n + 1
    | .closing => n = p.opened + 1
    | _ => p.opened = n := by
  cases a <;> cases kind : token.kind <;> simp only [Progress.step, kind] at stepped ⊢
  all_goals repeat' split at stepped
  all_goals cases stepped
  all_goals rfl

theorem runClimbs (lexical : Lexical tokens)
    (run : Progress.run ⟨n, a⟩ tokens = some ⟨m, next⟩) : climb n (written tokens) = some m := by
  induction tokens generalizing n a with
  | nil =>
    cases run
    rfl
  | cons token rest ih =>
    rw [Progress.runCons] at run
    obtain ⟨⟨k, b⟩, stepped, run⟩ := Option.bind_eq_some_iff.1 run
    have behind := ih lexical.tail run
    have opened := stepOpened stepped
    cases kind : token.kind <;> simp only [kind] at opened <;> subst opened
    case opening => rwa [writtenOpening lexical.head kind]
    case closing => rwa [writtenClosing lexical.head kind]
    all_goals rwa [climbInner lexical.head (by simp [kind])]

theorem derivationLevel (d : Derivation t) (lexical : Lexical d.tokens) :
    climb 0 (written d.tokens) = some 0 :=
  runClimbs lexical (d.runTokens 0)

end Levels

theorem lostOpen (before : List Token) {rest : List Token} {opening : Token}
    (lexical : Lexical (before ++ opening :: rest)) (kind : opening.kind = .opening)
    (lost : Group.split? 0 [] rest = none) :
    climb 0 (written (before ++ opening :: rest)) ≠ some 0 := by
  intro level
  rw [writtenAppend, climbAppend] at level
  obtain ⟨k, _, level⟩ := Option.bind_eq_some_iff.1 level
  rw [writtenOpening (lexical opening (by simp)) kind, climbOpening] at level
  obtain ⟨m, climbed⟩ := Option.ne_none_iff_exists'.1 (splitLost (lexical.sub (by simp)) lost)
  have more := climbMore climbed (k + 1)
  rw [Nat.zero_add, level] at more
  cases more

/- How a token that does not fit is reported: the end of a group is none of the tokens inside. -/
inductive Reported (before : List Token) (token : Token) : String → Prop where
  | plain (inner : token.kind ≠ .closing) : Reported before token token.text
  | stray (closes : token.kind = .closing) (level : climb 0 (written before) = some 0) :
      Reported before token token.text
  | groupEnd (front : List Token) {inside : List Token} {opening : Token}
      (closes : token.kind = .closing) (split : before = front ++ opening :: inside)
      (opens : opening.kind = .opening) (level : climb 0 (written inside) = some 0) :
      Reported before token "EOF"

inductive Blamed (t : Tier) (ahead : List Token) (mark : EndMark) : Fault → Prop where
  | misfit (before rest : List Token) {token : Token} {text : String}
      (split : ahead = before ++ token :: rest) (opens : Opens t before)
      (dead : ∀ n, Progress.run ⟨n, t.start⟩ (before ++ [token]) = none)
      (reported : Reported before token text) :
      Blamed t ahead mark (.parse (.unexpected text token.position))
  | short (opens : Opens t ahead)
      (wanting : ∀ n, ∃ next, next ≠ .operator ∧
        Progress.run ⟨n, t.start⟩ ahead = some ⟨n, next⟩) :
      Blamed t ahead mark (.parse (.unexpected mark.text mark.position))
  | unclosed (before : List Token) {rest : List Token} {opening : Token}
      (split : ahead = before ++ opening :: rest) (kind : opening.kind = .opening)
      (lost : Group.split? 0 [] rest = none) :
      Blamed t ahead mark (.parse (.unmatched opening.position))
  | unopened (before : List Token) {rest : List Token} {closing : Token}
      (split : ahead = before ++ closing :: rest) (kind : closing.kind = .closing)
      (level : climb 0 (written before) = some 0) :
      Blamed t ahead mark (.parse (.unmatched closing.position))
  | tooDeep {opening : Token} (mem : opening ∈ ahead) (kind : opening.kind = .opening) :
      Blamed t ahead mark (.parse (.tooDeep opening.position maxNesting))
  | tooLong {token : Token} (mem : token ∈ ahead) (numeral : token.kind = .numeral)
      (long : Numeral.maxDigits < token.text.length) : Blamed t ahead mark (.numeral .tooLong)

structure Continues (t t' : Tier) (front : List Token) : Prop where
  opens : ∀ tokens, Opens t' tokens → Opens t (front ++ tokens)
  leads : ∀ n, Progress.run ⟨n, t.start⟩ front = some ⟨n, t'.start⟩

section Continues

variable {t t' : Tier} {front rest : List Token} {mark : EndMark} {fault : Fault}

theorem Continues.first (same : t.start = t'.start)
    (lifts : ∀ operand : Derivation t', ∃ d : Derivation t, d.tokens = operand.tokens) :
    Continues t t' [] := by
  constructor
  · rintro tokens ⟨operand, more, split⟩
    obtain ⟨d, tokens⟩ := lifts operand
    exact ⟨d, more, tokens.trans split⟩
  · intro n
    rw [same]
    rfl

theorem Continues.sign {sign : Token} (spelled : sign.Spells .sub) :
    Continues .unary .primary [sign] := by
  constructor
  · rintro tokens ⟨operand, more, split⟩
    exact ⟨.minus sign spelled operand, more, congrArg (sign :: ·) split⟩
  · intro n
    simp only [Progress.runCons, Tier.start, stepSign spelled]
    rfl

theorem Continues.joined (left : Derivation t) {sign : Token} {op : BinOp}
    (spelled : sign.Spells op) (compound : t'.start = .operand)
    (joins : ∀ right : Derivation t', ∃ d : Derivation t,
      d.tokens = left.tokens ++ sign :: right.tokens) :
    Continues t t' (left.tokens ++ [sign]) := by
  constructor
  · rintro tokens ⟨right, more, split⟩
    obtain ⟨d, same⟩ := joins right
    exact ⟨d, more, by rw [same, split]; simp⟩
  · intro n
    rw [Progress.runAppend, left.runTokens, Option.bind_some, Progress.runCons,
      stepOperator spelled, compound]
    rfl

theorem Continues.run (continues : Continues t t' front) (n : Nat) (tokens : List Token) :
    Progress.run ⟨n, t.start⟩ (front ++ tokens) = Progress.run ⟨n, t'.start⟩ tokens := by
  rw [Progress.runAppend, continues.leads, Option.bind_some]

theorem Reported.after {before : List Token} {token : Token} {text : String}
    (reported : Reported before token text) (level : climb 0 (written front) = some 0) :
    Reported (front ++ before) token text := by
  cases reported with
  | plain inner => exact .plain inner
  | stray closes level' =>
    refine .stray closes ?_
    rw [writtenAppend, climbAppend, level, Option.bind_some, level']
  | groupEnd front' closes split opens level' =>
    refine .groupEnd (front ++ front') closes ?_ opens level'
    rw [split, List.append_assoc]

theorem Blamed.after (continues : Continues t t' front) (lexical : Lexical front)
    (blamed : Blamed t' rest mark fault) : Blamed t (front ++ rest) mark fault := by
  have level : climb 0 (written front) = some 0 := runClimbs lexical (continues.leads 0)
  cases blamed with
  | misfit before rest split opens dead reported =>
    refine .misfit (front ++ before) rest ?_ (continues.opens _ opens) ?_ (reported.after level)
    · rw [split, List.append_assoc]
    · intro n
      rw [List.append_assoc, continues.run, dead]
  | short opens wanting =>
    refine .short (continues.opens _ opens) fun n => ?_
    rw [continues.run]
    exact wanting n
  | unclosed before split kind lost =>
    exact .unclosed (front ++ before) (by rw [split, List.append_assoc]) kind lost
  | unopened before split kind level' =>
    refine .unopened (front ++ before) (by rw [split, List.append_assoc]) kind ?_
    rw [writtenAppend, climbAppend, level, Option.bind_some, level']
  | tooDeep mem kind => exact .tooDeep (List.mem_append_right _ mem) kind
  | tooLong mem numeral long => exact .tooLong (List.mem_append_right _ mem) numeral long

theorem Blamed.unsigned {ahead : List Token} (unsigned : ∀ first ∈ ahead.head?, ¬first.Spells .sub)
    (blamed : Blamed .primary ahead mark fault) : Blamed .unary ahead mark fault := by
  have plain {tokens : List Token} (opens : Opens .primary tokens) : Opens .unary tokens := by
    obtain ⟨d, more, split⟩ := opens
    exact ⟨.plain d, more, split⟩
  cases blamed with
  | @misfit before rest token text split opens dead reported =>
    refine .misfit before rest split (plain opens) (fun n => ?_) reported
    obtain ⟨first, more, same⟩ : ∃ first more, before ++ [token] = first :: more :=
      List.exists_cons_of_ne_nil (by simp)
    have head : ahead.head? = some first := by
      rw [split, List.append_cons, same]
      rfl
    have stuck : Progress.run ⟨n, .primary⟩ (before ++ [token]) = none := dead n
    rwa [Tier.start, same, runUnsigned (unsigned first head), ← same]
  | short opens wanting =>
    refine .short (plain opens) fun n => ?_
    cases ahead with
    | nil => exact ⟨.operand, by decide, rfl⟩
    | cons first more =>
      obtain ⟨next, apart, led⟩ := wanting n
      exact ⟨next, apart, (runUnsigned (unsigned first rfl)).trans led⟩
  | unclosed before split kind lost => exact .unclosed before split kind lost
  | unopened before split kind level => exact .unopened before split kind level
  | tooDeep mem kind => exact .tooDeep mem kind
  | tooLong mem numeral long => exact .tooLong mem numeral long

theorem Blamed.grouped {opening closing : Token} {inside : List Token}
    (opens : opening.kind = .opening) (closes : closing.kind = .closing)
    (lexical : Lexical inside) (level : climb 0 (written inside) = some 0)
    (blamed : Blamed .sum inside ⟨"EOF", closing.position⟩ fault) :
    Blamed .primary (opening :: (inside ++ closing :: rest)) mark fault := by
  have opened {tokens : List Token} (begun : Opens .sum tokens) :
      Opens .primary (opening :: tokens) := by
    obtain ⟨d, more, split⟩ := begun
    exact ⟨.group opening closing opens closes d, more ++ [closing], by
      simp [Derivation.tokens, split]⟩
  have within (n : Nat) (tokens : List Token) :
      Progress.run ⟨n, .primary⟩ (opening :: tokens) =
        Progress.run ⟨n + 1, .operand⟩ tokens := by
    rw [Progress.runCons, stepOpening opens, Option.bind_some]
  -- All parentheses inside have their partners there.
  have closed {before rest : List Token} {token : Token} (split : inside = before ++ token :: rest)
      (paired : climb 0 (written before) = some 0) : token.kind ≠ .closing := by
    intro kind
    rw [split] at level lexical
    rw [writtenAppend, climbAppend, paired, Option.bind_some,
      writtenClosing (lexical token (by simp)) kind] at level
    cases level
  cases blamed with
  | misfit before rest' split begun dead reported =>
    refine .misfit (opening :: before) (rest' ++ closing :: rest) (by simp [split])
      (opened begun) (fun n => (within n _).trans (dead (n + 1))) ?_
    cases reported with
    | plain inner => exact .plain inner
    | stray kind paired => exact absurd kind (closed split paired)
    | groupEnd front kind split' opens' level' =>
      exact .groupEnd (opening :: front) kind (congrArg (opening :: ·) split') opens'
        level'
  | short begun wanting =>
    refine .misfit (opening :: inside) rest rfl (opened begun) (fun n => ?_)
      (.groupEnd [] closes rfl opens level)
    obtain ⟨next, apart, led⟩ := wanting (n + 1)
    have led : Progress.run ⟨n + 1, .operand⟩ inside = some ⟨n + 1, next⟩ := led
    have stuck : Progress.step ⟨n + 1, next⟩ closing = none := by
      cases next with
      | operator => exact absurd rfl apart
      | operand | primary => simp [Progress.step, closes]
    calc Progress.run ⟨n, .primary⟩ (opening :: (inside ++ [closing]))
      _ = Progress.run ⟨n + 1, next⟩ [closing] := by
        rw [within, Progress.runAppend, led, Option.bind_some]
      _ = none := by rw [Progress.runCons, stuck, Option.bind_none]
  | unclosed before split kind lost =>
    exact absurd (split ▸ level) (lostOpen before (split ▸ lexical) kind lost)
  | unopened before split kind level' => exact absurd kind (closed split level')
  | tooDeep mem kind => exact .tooDeep (by simp [mem]) kind
  | tooLong mem numeral long => exact .tooLong (by simp [mem]) numeral long

end Continues

end ArithEquiv.Parse
