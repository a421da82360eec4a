import ArithEquiv.Proofs.Scanning

/-! Reading follows the grammar. A derivation whose groups are not too deep is read as its tree,
and one with a group that is too deep is refused at the first of them; whatever is read has been
derived. Refusals are of few kinds. -/
namespace ArithEquiv.Parse

section Steps

variable {α β : Type} {r : Reading α} {f : α → Reading β} {c after : Cursor}

theorem bindReading : (r >>= f) c = ExceptT.bindCont f (r c).1 (r c).2 := rfl

theorem bindRead {a : α} (read : r c = (.ok a, after)) : (r >>= f) c = f a after := by
  rw [bindReading, read]
  rfl

theorem bindRefused {fault : Fault} (refused : r c = (.error fault, after)) :
    (r >>= f) c = (.error fault, after) := by
  rw [bindReading, refused]
  rfl

theorem bindGet (f : Cursor → Reading β) (c : Cursor) : (get >>= f) c = f c c := rfl

theorem advanceOver {token : Token} (kind : token.kind ≠ .ending) (passed rest : List Token)
    (mark : EndMark) :
    Cursor.advance ⟨passed, token :: rest, mark⟩ = (.ok token, ⟨token :: passed, rest, mark⟩) := by
  simp [Cursor.advance, kind]

end Steps

section Chains

variable {allowed : List BinOp} {operand : Reading Expr} {bound : List Token} {left : Expr}

theorem chainStops {c : Cursor} (stops : c.peek.operator? allowed = none) :
    chain allowed operand bound left c = (.ok left, c) := by
  cases bound with
  | nil => rfl
  | cons b bound =>
    rw [chain, bindGet, stops]
    rfl

theorem chainSteps {sign : Token} {op : BinOp} (spelled : sign.Spells op) (known : op ∈ allowed)
    (b : Token) (passed rest : List Token) (mark : EndMark) :
    chain allowed operand (b :: bound) left ⟨passed, sign :: rest, mark⟩ =
      (operand >>= fun right => chain allowed operand bound (.bin op left right))
        ⟨sign :: passed, rest, mark⟩ := by
  have found : (Cursor.peek ⟨passed, sign :: rest, mark⟩).operator? allowed = some op :=
    Token.operatorSpells.2 ⟨spelled, known⟩
  rw [chain, bindGet, found]
  exact bindRead (advanceOver (Derivation.kindOperator spelled) passed rest mark)

end Chains

def reading (inside : Inside) : Tier → Reading Expr
  | .primary => primary inside
  | .unary => unary inside
  | .product => product inside
  | .sum => sum inside

def further (inside : Inside) : Tier → List Token → Expr → Reading Expr
  | .product, bound, e => chain [.mul, .div] (unary inside) bound e
  | .sum, bound, e => chain [.add, .sub] (product inside) bound e
  | _, _, e => pure e

def Ends (c : Cursor) : Tier → Prop
  | .sum => c.peek.operator? [.mul, .div] = none
  | _ => True

def Readable (tokens : List Token) : Prop :=
  ∀ token ∈ tokens, token.kind = .numeral → token.value = .ok (decimal token.text : Int)

def tooDeep? {t : Tier} (d : Derivation t) (level : Nat) : Option (Token × Nat) :=
  (d.groups level).find? fun g => maxNesting < g.2

def refusal (g : Token × Nat) : Fault := .parse (.tooDeep g.1.position maxNesting)

section Groups

variable {t : Tier}

theorem enclosedGroup {opening closing : Token} (opens : opening.kind = .opening)
    (closes : closing.kind = .closing) (inside : Derivation .sum) (passed rest : List Token)
    (mark : EndMark) :
    Cursor.enclosed ⟨passed, opening :: (inside.tokens ++ closing :: rest), mark⟩ =
      (.ok ⟨[], inside.tokens, ⟨"EOF", closing.position⟩⟩,
        ⟨closing :: (inside.tokens.reverse ++ opening :: passed), rest, mark⟩) := by
  have found : Group.split? 0 [] (inside.tokens ++ closing :: rest) =
      some ⟨inside.tokens, closing, rest⟩ := by
    rw [inside.splitPast, List.append_nil, Group.splitFound _ _ closes, List.reverse_reverse]
  simp [Cursor.enclosed, opens, found]

theorem peelStops {bound : List Token} {group : Cursor} (apart : group.isAt .opening = false) :
    peel bound group = .ok group := by
  cases bound with
  | nil => rfl
  | cons b bound => simp [peel, apart]

/- More follows the first group, so its parentheses stay. -/
theorem peelKeeps (d : Derivation t) {sign : Token} {op : BinOp} (spelled : sign.Spells op)
    (bound more : List Token) (mark : EndMark) :
    peel bound ⟨[], d.tokens ++ sign :: more, mark⟩ = .ok ⟨[], d.tokens ++ sign :: more, mark⟩ := by
  obtain ⟨opening, front, same⟩ := d.tokensNonempty
  rw [same]
  by_cases opens : opening.kind = .opening
  · obtain ⟨inside, closing, after, found⟩ := d.splitFirst same opens
    have next (passed : List Token) :
        Cursor.isAt ⟨passed, after ++ sign :: more, mark⟩ .ending = false := by
      refine beq_false_of_ne ?_
      cases after with
      | nil => exact Derivation.kindOperator spelled
      | cons first after =>
        have parts := Group.splitTokens (by simpa using found [])
        refine d.noEnding first ?_
        rw [same, show front = _ from parts]
        simp
    cases bound with
    | nil => rfl
    | cons b bound =>
      have opened : Cursor.isAt ⟨[], opening :: front ++ sign :: more, mark⟩ .opening = true := by
        simpa [Cursor.isAt, Cursor.peek] using opens
      have pair : Cursor.enclosed ⟨[], opening :: front ++ sign :: more, mark⟩ =
          (.ok ⟨[], inside, ⟨"EOF", closing.position⟩⟩,
            ⟨closing :: (inside.reverse ++ [opening]), after ++ sign :: more, mark⟩) := by
        simp [Cursor.enclosed, opens, found]
      simp only [peel, opened, pair, next]
      rfl
  · refine peelStops ?_
    simpa [Cursor.isAt, Cursor.peek] using opens

theorem peelCore (d : Derivation t) (bound : List Token) (enough : d.tokens.length ≤ bound.length)
    (mark : EndMark) :
    ∃ mark', peel bound ⟨[], d.tokens, mark⟩ =
      .ok ⟨[], (d.core.map Derivation.tokens).getD d.tokens, mark'⟩ := by
  induction d generalizing bound mark with
  | numeral token kind =>
    exact ⟨mark, peelStops (by simp [Cursor.isAt, Cursor.peek, Derivation.tokens, kind])⟩
  | name token kind =>
    exact ⟨mark, peelStops (by simp [Cursor.isAt, Cursor.peek, Derivation.tokens, kind])⟩
  | group opening closing opens closes inside ih =>
    cases bound with
    | nil => simp [Derivation.tokens] at enough
    | cons b bound =>
      obtain ⟨mark', peeled⟩ := ih bound (by simp [Derivation.tokens] at enough; omega)
        ⟨"EOF", closing.position⟩
      refine ⟨mark', ?_⟩
      have pair := enclosedGroup opens closes inside [] [] mark
      simp only [peel, Derivation.tokens, Cursor.isAt, Cursor.peek, List.headD_cons, opens, pair]
      simp only [List.headD_nil, EndMark.token, beq_self_eq_true, if_true, peeled, Derivation.core]
      cases inside.core <;> rfl
  | plain operand ih => exact ih bound enough mark
  | minus sign spelled operand ih =>
    exact ⟨mark, peelStops (by simp [Cursor.isAt, Cursor.peek, Derivation.tokens, spelled.1])⟩
  | factor operand ih => exact ih bound enough mark
  | times left op sign spelled allowed right _ _ => exact ⟨mark, peelKeeps left spelled _ _ _⟩
  | term operand ih => exact ih bound enough mark
  | plus left op sign spelled allowed right _ _ => exact ⟨mark, peelKeeps left spelled _ _ _⟩

theorem peelPeeled (d : Derivation .sum) (mark : EndMark) :
    ∃ mark', peel d.tokens ⟨[], d.tokens, mark⟩ = .ok ⟨[], d.peeled.tokens, mark'⟩ := by
  obtain ⟨mark', peeled⟩ := peelCore d d.tokens (Nat.le_refl _) mark
  refine ⟨mark', ?_⟩
  rw [peeled, Derivation.peeled]
  cases d.core <;> rfl

end Groups

structure Follows (inside : Inside) (level : Nat) {t : Tier} (d : Derivation t) : Prop where
  passes : tooDeep? d level = none → ∀ passed rest mark, Ends ⟨passed, rest, mark⟩ t →
    ∃ bound : List Token, rest.length ≤ bound.length ∧
      reading inside t ⟨passed, d.tokens ++ rest, mark⟩ =
        further inside t bound d.tree ⟨d.tokens.reverse ++ passed, rest, mark⟩
  refuses : ∀ g, tooDeep? d level = some g → ∀ passed rest mark,
    ∃ after, reading inside t ⟨passed, d.tokens ++ rest, mark⟩ = (.error (refusal g), after)

section Follows

variable {inside : Inside} {level : Nat}

def outcome (d : Derivation .sum) (level : Nat) : Except Fault Expr :=
  match tooDeep? d level with
  | none => .ok d.tree
  | some g => .error (refusal g)

theorem wholeRead {c after : Cursor} {e : Expr} (read : sum inside c = (.ok e, after)) :
    (whole inside c).1 =
      match after.peek.kind with
      | .ending => .ok e
      | .closing => .error (.parse (.unmatched after.peek.position))
      | _ => .error (.parse (.unexpected after.peek.text after.peek.position)) := by
  rw [whole, bindRead read, bindGet]
  cases kind : after.peek.kind <;> rfl

theorem noOperator (allowed : List BinOp) (passed : List Token) (mark : EndMark) :
    (Cursor.peek ⟨passed, [], mark⟩).operator? allowed = none := rfl

theorem Follows.whole {d : Derivation .sum} (follows : Follows inside level d) (mark : EndMark) :
    (whole inside ⟨[], d.tokens, mark⟩).1 = outcome d level := by
  have same : d.tokens = d.tokens ++ [] := (List.append_nil _).symm
  unfold outcome
  cases deep : tooDeep? d level with
  | none =>
    obtain ⟨bound, _, read⟩ := follows.passes deep [] [] mark (noOperator _ _ _)
    rw [← same] at read
    have summed : sum inside ⟨[], d.tokens, mark⟩ =
        (.ok d.tree, ⟨d.tokens.reverse ++ [], [], mark⟩) :=
      read.trans (chainStops (noOperator _ _ _))
    exact wholeRead summed
  | some g =>
    obtain ⟨after, refused⟩ := follows.refuses g deep [] [] mark
    rw [← same] at refused
    have summed : sum inside ⟨[], d.tokens, mark⟩ = (.error (refusal g), after) := refused
    rw [Parse.whole, bindRefused summed]

theorem tooDeepAppend {t t' : Tier} {left : Derivation t} {right : Derivation t'} :
    ((left.groups level ++ right.groups level).find? fun g => maxNesting < g.2) =
      (tooDeep? left level).or (tooDeep? right level) :=
  List.find?_append

def Stops (c : Cursor) : Tier → Prop
  | .product => c.peek.operator? [.mul, .div] = none
  | .sum => c.peek.operator? [.mul, .div] = none ∧ c.peek.operator? [.add, .sub] = none
  | _ => True

theorem Follows.reads {t : Tier} {d : Derivation t} (follows : Follows inside level d)
    (shallow : tooDeep? d level = none) (passed rest : List Token) (mark : EndMark)
    (stops : ∀ passed, Stops ⟨passed, rest, mark⟩ t) :
    reading inside t ⟨passed, d.tokens ++ rest, mark⟩ =
      (.ok d.tree, ⟨d.tokens.reverse ++ passed, rest, mark⟩) := by
  have ends : Ends ⟨passed, rest, mark⟩ t := by
    cases t with
    | sum => exact (stops passed).1
    | primary | unary | product => trivial
  obtain ⟨bound, _, read⟩ := follows.passes shallow passed rest mark ends
  rw [read]
  cases t with
  | primary | unary => rfl
  | product => exact chainStops (stops _)
  | sum => exact chainStops (stops _).2

theorem Follows.joined {t t' : Tier} (left : Derivation t) (right : Derivation t')
    {d : Derivation t} {op : BinOp} {sign : Token} {allowed : List BinOp}
    (spelled : sign.Spells op) (known : op ∈ allowed)
    (tokens : d.tokens = left.tokens ++ sign :: right.tokens)
    (tree : d.tree = .bin op left.tree right.tree)
    (groups : d.groups level = left.groups level ++ right.groups level)
    (step : ∀ bound e, further inside t bound e = chain allowed (reading inside t') bound e)
    (endsLeft : ∀ passed rest mark, Ends ⟨passed, sign :: rest, mark⟩ t)
    (stopsRight : ∀ passed passed' rest mark, Ends ⟨passed, rest, mark⟩ t →
      Stops ⟨passed', rest, mark⟩ t')
    (followsLeft : Follows inside level left) (followsRight : Follows inside level right) :
    Follows inside level d := by
  have deep : tooDeep? d level = (tooDeep? left level).or (tooDeep? right level) := by
    rw [tooDeep?, groups]
    exact tooDeepAppend
  have behindLeft (shallow : tooDeep? left level = none) (passed rest : List Token)
      (mark : EndMark) : ∃ bound : List Token, rest.length ≤ bound.length ∧
        reading inside t ⟨passed, d.tokens ++ rest, mark⟩ =
          (reading inside t' >>= fun e => further inside t bound (.bin op left.tree e))
            ⟨sign :: (left.tokens.reverse ++ passed), right.tokens ++ rest, mark⟩ := by
    obtain ⟨bound, enough, read⟩ := followsLeft.passes shallow passed
      (sign :: (right.tokens ++ rest)) mark (endsLeft _ _ _)
    cases bound with
    | nil => simp at enough
    | cons b bound =>
      refine ⟨bound, by simp at enough; omega, ?_⟩
      rw [tokens, List.append_assoc, List.cons_append, read, step, chainSteps spelled known]
      simp only [step]
  constructor
  · intro shallow passed rest mark ends
    obtain ⟨shallowLeft, shallowRight⟩ := Option.or_eq_none_iff.1 (deep.symm.trans shallow)
    obtain ⟨bound, enough, read⟩ := behindLeft shallowLeft passed rest mark
    refine ⟨bound, enough, ?_⟩
    rw [read, bindRead (followsRight.reads shallowRight _ rest mark
      fun passed' => stopsRight passed passed' rest mark ends), tree, tokens]
    simp
  · intro g found passed rest mark
    rw [deep] at found
    cases shallow : tooDeep? left level with
    | some first =>
      rw [shallow] at found
      cases found
      obtain ⟨after, refused⟩ := followsLeft.refuses g shallow passed
        (sign :: (right.tokens ++ rest)) mark
      refine ⟨after, ?_⟩
      rwa [tokens, List.append_assoc, List.cons_append]
    | none =>
      rw [shallow, Option.none_or] at found
      obtain ⟨bound, _, read⟩ := behindLeft shallow passed rest mark
      obtain ⟨after, refused⟩ := followsRight.refuses g found
        (sign :: (left.tokens.reverse ++ passed)) rest mark
      exact ⟨after, by rw [read, bindRefused refused]⟩

theorem Follows.single {t t' : Tier} (operand : Derivation t') {d : Derivation t}
    {allowed : List BinOp} (tokens : d.tokens = operand.tokens) (tree : d.tree = operand.tree)
    (groups : d.groups level = operand.groups level)
    (read : reading inside t = tier allowed (reading inside t'))
    (step : ∀ bound e, further inside t bound e = chain allowed (reading inside t') bound e)
    (stops : ∀ passed passed' rest mark, Ends ⟨passed, rest, mark⟩ t →
      Stops ⟨passed', rest, mark⟩ t')
    (follows : Follows inside level operand) : Follows inside level d := by
  have deep : tooDeep? d level = tooDeep? operand level := by rw [tooDeep?, groups, tooDeep?]
  constructor
  · intro shallow passed rest mark ends
    refine ⟨rest, Nat.le_refl _, ?_⟩
    rw [read, tier, tokens, bindRead (follows.reads (deep.symm.trans shallow) passed rest mark
      fun passed' => stops passed passed' rest mark ends), bindGet, tree, step]
  · intro g found passed rest mark
    obtain ⟨after, refused⟩ := follows.refuses g (deep.symm.trans found) passed rest mark
    exact ⟨after, by rw [read, tier, tokens, bindRefused refused]⟩

end Follows

theorem endsOperator {sign : Token} {op : BinOp} (spelled : sign.Spells op)
    (apart : op ∈ [BinOp.add, .sub]) (passed rest : List Token) (mark : EndMark) :
    Ends ⟨passed, sign :: rest, mark⟩ .sum := by
  cases found : sign.operator? [.mul, .div] with
  | none => exact found
  | some other =>
    obtain ⟨⟨_, text⟩, known⟩ := Token.operatorSpells.1 found
    have same : op.symbol = other.symbol := spelled.2.symm.trans text
    simp only [List.mem_cons, List.not_mem_nil, or_false] at apart known
    rcases apart with rfl | rfl <;> rcases known with rfl | rfl <;> simp [BinOp.symbol] at same

theorem Readable.left {front back : List Token} (readable : Readable (front ++ back)) :
    Readable front :=
  fun token mem => readable token (List.mem_append_left _ mem)

theorem Readable.right {sign : Token} {front back : List Token}
    (readable : Readable (front ++ sign :: back)) : Readable back :=
  fun token mem => readable token (List.mem_append_right _ (List.mem_cons_of_mem _ mem))

section Primaries

variable {inside : Inside} {token : Token} {passed rest : List Token} {mark : EndMark}

theorem primaryNumeral (kind : token.kind = .numeral) :
    primary inside ⟨passed, token :: rest, mark⟩ =
      (token.value.map .const, ⟨token :: passed, rest, mark⟩) := by
  rw [primary, bindGet]
  simp only [Cursor.peek, List.headD_cons, kind]
  rw [bindRead (advanceOver (by rw [kind]; decide) passed rest mark)]
  cases token.value <;> rfl

theorem primaryName (kind : token.kind = .name) :
    primary inside ⟨passed, token :: rest, mark⟩ =
      (.ok (.var token.text), ⟨token :: passed, rest, mark⟩) := by
  rw [primary, bindGet]
  simp only [Cursor.peek, List.headD_cons, kind]
  rw [bindRead (advanceOver (by rw [kind]; decide) passed rest mark)]
  rfl

theorem groupEnclosed {c g after : Cursor} (pair : Cursor.enclosed c = (.ok g, after)) :
    group inside c = (peel g.ahead g >>= inside c.peek, after) := by
  rw [group, bindGet, bindRead pair]
  cases peel g.ahead g <;> rfl

theorem primaryGroup {closing : Token} (opens : token.kind = .opening)
    (closes : closing.kind = .closing) (d : Derivation .sum) :
    ∃ mark', primary inside ⟨passed, token :: (d.tokens ++ closing :: rest), mark⟩ =
      (inside token ⟨[], d.peeled.tokens, mark'⟩,
        ⟨closing :: (d.tokens.reverse ++ token :: passed), rest, mark⟩) := by
  obtain ⟨mark', peeled⟩ := peelPeeled d ⟨"EOF", closing.position⟩
  refine ⟨mark', ?_⟩
  rw [primary, bindGet]
  simp only [Cursor.peek, List.headD_cons, opens]
  rw [groupEnclosed (enclosedGroup opens closes d passed rest mark), peeled]
  rfl

theorem unaryPlain (d : Derivation .primary) :
    unary inside ⟨passed, d.tokens ++ rest, mark⟩ =
      primary inside ⟨passed, d.tokens ++ rest, mark⟩ := by
  have first : (Cursor.peek ⟨passed, d.tokens ++ rest, mark⟩).operator? [.sub] = none := by
    cases d <;> simp_all [Derivation.tokens, Cursor.peek, Token.operator?]
  rw [unary, bindGet, first]

theorem unaryMinus (spelled : token.Spells .sub) :
    unary inside ⟨passed, token :: rest, mark⟩ =
      (primary inside >>= fun e => pure (.neg e)) ⟨token :: passed, rest, mark⟩ := by
  have first : (Cursor.peek ⟨passed, token :: rest, mark⟩).operator? [.sub] = some .sub :=
    Token.operatorSpells.2 ⟨spelled, by simp⟩
  rw [unary, bindGet, first]
  exact bindRead (advanceOver (Derivation.kindOperator spelled) passed rest mark)

end Primaries

theorem insideGroup {opening : Token} {d : Derivation .sum} {level levels : Nat}
    (spare : levels + level = maxNesting)
    (follows : ∀ levels', levels' + (level + 1) = maxNesting →
      Follows (insideAt levels') (level + 1) d) (mark : EndMark) :
    insideAt levels opening ⟨[], d.tokens, mark⟩ =
      if maxNesting < level + 1 then .error (refusal (opening, level + 1))
      else outcome d (level + 1) := by
  cases levels with
  | zero =>
    rw [if_pos (by omega)]
    rfl
  | succ levels =>
    rw [if_neg (by omega)]
    exact (follows levels (by omega)).whole mark

theorem Follows.group {opening closing : Token} {opens closes} {d : Derivation .sum}
    {level levels : Nat} (spare : levels + level = maxNesting)
    (follows : ∀ levels', levels' + (level + 1) = maxNesting →
      Follows (insideAt levels') (level + 1) d.peeled) :
    Follows (insideAt levels) level (.group opening closing opens closes d) := by
  have groups := Derivation.groupsPeeled opening closing opens closes d level
  have deep : tooDeep? (.group opening closing opens closes d) level =
      if maxNesting < level + 1 then some (opening, level + 1)
      else tooDeep? d.peeled (level + 1) := by
    rw [tooDeep?, groups, List.find?_cons]
    by_cases deep : maxNesting < level + 1 <;> simp [deep, tooDeep?]
  have read (passed rest : List Token) (mark : EndMark) :
      reading (insideAt levels) .primary
          ⟨passed, (Derivation.group opening closing opens closes d).tokens ++ rest, mark⟩ =
        (if maxNesting < level + 1 then .error (refusal (opening, level + 1))
          else outcome d.peeled (level + 1),
          ⟨closing :: (d.tokens.reverse ++ opening :: passed), rest, mark⟩) := by
    obtain ⟨mark', read⟩ : ∃ mark', primary (insideAt levels)
        ⟨passed, opening :: (d.tokens ++ closing :: rest), mark⟩ =
          (insideAt levels opening ⟨[], d.peeled.tokens, mark'⟩,
            ⟨closing :: (d.tokens.reverse ++ opening :: passed), rest, mark⟩) :=
      primaryGroup opens closes d
    rw [insideGroup spare follows] at read
    simpa [reading, Derivation.tokens] using read
  constructor
  · intro shallow passed rest mark _
    refine ⟨rest, Nat.le_refl _, ?_⟩
    rw [deep] at shallow
    split at shallow
    · cases shallow
    · rename_i high
      have after : (Derivation.group opening closing opens closes d).tokens.reverse ++ passed =
          closing :: (d.tokens.reverse ++ opening :: passed) := by
        simp [Derivation.tokens]
      rw [read, if_neg high, outcome, shallow, after]
      simp only [d.treePeeled]
      rfl
  · intro g found passed rest mark
    refine ⟨⟨closing :: (d.tokens.reverse ++ opening :: passed), rest, mark⟩, ?_⟩
    rw [read]
    rw [deep] at found
    split at found
    · rename_i high
      cases found
      rw [if_pos high]
    · rename_i high
      rw [if_neg high, outcome, found]

theorem followsDerivation {t : Tier} (d : Derivation t) (level levels : Nat)
    (spare : levels + level = maxNesting) (readable : Readable d.tokens) :
    Follows (insideAt levels) level d := by
  -- The levels that may still be opened shrink as those around the derivation grow.
  induction d using Derivation.peeledInduction generalizing level levels with
  | numeral token kind =>
    have value := readable token (by simp [Derivation.tokens]) kind
    refine ⟨fun _ _ rest _ _ => ⟨rest, Nat.le_refl _, ?_⟩, fun g deep => ?_⟩
    · exact (primaryNumeral kind).trans (by rw [value]; rfl)
    · cases deep
  | name token kind =>
    refine ⟨fun _ _ rest _ _ => ⟨rest, Nat.le_refl _, primaryName kind⟩, fun g deep => ?_⟩
    cases deep
  | group opening closing opens closes inside ih =>
    have within : Readable inside.tokens := fun token mem =>
      readable token (by simp [Derivation.tokens, mem])
    exact Follows.group spare fun levels' spare' =>
      ih (level + 1) levels' spare' fun token mem => within token (inside.tokensPeeled mem)
  | plain operand ih =>
    have follows := ih level levels spare readable
    constructor
    · intro shallow passed rest mark ends
      obtain ⟨bound, enough, read⟩ := follows.passes shallow passed rest mark trivial
      exact ⟨bound, enough, (unaryPlain operand).trans read⟩
    · intro g found passed rest mark
      obtain ⟨after, refused⟩ := follows.refuses g found passed rest mark
      exact ⟨after, (unaryPlain operand).trans refused⟩
  | minus sign spelled operand ih =>
    have follows := ih level levels spare fun token mem =>
      readable token (List.mem_cons_of_mem _ mem)
    constructor
    · intro shallow passed rest mark _
      refine ⟨rest, Nat.le_refl _, (unaryMinus spelled).trans ?_⟩
      refine (bindRead (follows.reads shallow (sign :: passed) rest mark fun _ => trivial)).trans ?_
      simp [further, Derivation.tokens, Derivation.tree]
    · intro g found passed rest mark
      obtain ⟨after, refused⟩ := follows.refuses g found (sign :: passed) rest mark
      exact ⟨after, (unaryMinus spelled).trans (bindRefused refused)⟩
  | factor operand ih =>
    exact (ih level levels spare readable).single operand rfl rfl rfl rfl (fun _ _ => rfl)
      fun _ _ _ _ _ => trivial
  | times left op sign spelled allowed right ihl ihr =>
    exact (ihl level levels spare readable.left).joined left right spelled allowed rfl rfl rfl
      (fun _ _ => rfl) (fun _ _ _ => trivial) (fun _ _ _ _ _ => trivial)
      (ihr level levels spare readable.right)
  | term operand ih =>
    exact (ih level levels spare readable).single operand rfl rfl rfl rfl (fun _ _ => rfl)
      fun _ _ _ _ ends => ends
  | plus left op sign spelled allowed right ihl ihr =>
    exact (ihl level levels spare readable.left).joined left right spelled allowed rfl rfl rfl
      (fun _ _ => rfl) (endsOperator spelled allowed) (fun _ _ _ _ ends => ends)
      (ihr level levels spare readable.right)

end ArithEquiv.Parse
