import ArithEquiv.Proofs.Blame

/-! Every part of an expression is read or blamed. What has been read is the tree of a derivation of
the tokens passed; what is refused is refused for one of the reasons there are, at its place. -/
namespace ArithEquiv.Parse

open Token

structure Reads {t : Tier} (d : Derivation t) (e : Expr) : Prop where
  tree : d.tree = e
  readable : Readable d.tokens

section Reads

variable {t t' : Tier} {left : Derivation t} {right : Derivation t'} {e e' : Expr}

theorem Reads.single {d : Derivation t'} (reads : Reads left e) (tokens : d.tokens = left.tokens)
    (tree : d.tree = left.tree) : Reads d e :=
  ⟨tree.trans reads.tree, tokens ▸ reads.readable⟩

theorem Reads.group {inside : Derivation .sum} {opening closing : Token}
    {opens : opening.kind = .opening} {closes : closing.kind = .closing} (reads : Reads inside e) :
    Reads (.group opening closing opens closes inside) e := by
  refine ⟨reads.tree, fun token mem numeral => ?_⟩
  simp only [Derivation.tokens, List.mem_cons, List.mem_append, List.not_mem_nil, or_false] at mem
  rcases mem with rfl | mem | rfl
  · cases opens.symm.trans numeral
  · exact reads.readable token mem numeral
  · cases closes.symm.trans numeral

theorem Reads.minus {operand : Derivation .primary} {sign : Token} {spelled : sign.Spells .sub}
    (reads : Reads operand e) : Reads (.minus sign spelled operand) (.neg e) := by
  refine ⟨congrArg Expr.neg reads.tree, fun token mem numeral => ?_⟩
  rcases List.mem_cons.1 mem with rfl | mem
  · cases spelled.1.symm.trans numeral
  · exact reads.readable token mem numeral

theorem Reads.joined {d : Derivation t} {sign : Token} {op : BinOp} (reads : Reads left e)
    (reads' : Reads right e') (spelled : sign.Spells op)
    (tokens : d.tokens = left.tokens ++ sign :: right.tokens)
    (tree : d.tree = .bin op left.tree right.tree) : Reads d (.bin op e e') := by
  refine ⟨by rw [tree, reads.tree, reads'.tree], fun token mem numeral => ?_⟩
  rw [tokens, List.mem_append, List.mem_cons] at mem
  rcases mem with mem | rfl | mem
  · exact reads.readable token mem numeral
  · cases spelled.1.symm.trans numeral
  · exact reads'.readable token mem numeral

end Reads

structure Located (t : Tier) (c : Cursor) (result : Except Fault Expr × Cursor) : Prop where
  read : ∀ e, result.1 = .ok e → ∃ d : Derivation t, Reads d e ∧
    c.ahead = d.tokens ++ result.2.ahead ∧ result.2.mark = c.mark ∧ Stops result.2 t
  blamed : ∀ fault, result.1 = .error fault → Blamed t c.ahead c.mark fault

def Locates (t : Tier) (r : Reading Expr) : Prop := ∀ c, Scanned c.ahead → Located t c (r c)

section Located

variable {t t' : Tier} {c after : Cursor}

theorem Located.ok {e : Expr} {d : Derivation t} (reads : Reads d e)
    (same : c.ahead = d.tokens ++ after.ahead) (mark : after.mark = c.mark)
    (stops : Stops after t) : Located t c (.ok e, after) :=
  ⟨fun _ read => ⟨d, Except.ok.inj read ▸ reads, same, mark, stops⟩, nofun⟩

theorem Located.stopped {fault : Fault} (blamed : Blamed t c.ahead c.mark fault) :
    Located t c (.error fault, after) :=
  ⟨nofun, fun _ same => Except.error.inj same ▸ blamed⟩

theorem Located.bind {r : Reading Expr} {f : Expr → Reading Expr} {start : Cursor}
    {front : List Token} (located : Located t' c (r c)) (continues : Continues t t' front)
    (scanned : Scanned start.ahead) (split : start.ahead = front ++ c.ahead)
    (mark : c.mark = start.mark)
    (next : ∀ e after (d : Derivation t'), Reads d e → c.ahead = d.tokens ++ after.ahead →
      after.mark = start.mark → Stops after t' → Located t start (f e after)) :
    Located t start ((r >>= f) c) := by
  rcases result : r c with ⟨_ | e, after⟩
  · rename_i fault
    rw [bindRefused result]
    refine .stopped ?_
    have blamed := located.blamed fault (by rw [result])
    rw [split, ← mark]
    exact blamed.after continues (scanned.lexical.sub (by simp [split]))
  · rw [bindRead result]
    obtain ⟨d, reads, same, kept, stops⟩ := located.read e (by rw [result])
    rw [result] at same kept stops
    exact next e after d reads same (kept.trans mark) stops

end Located

theorem peekOperator {c : Cursor} {allowed : List BinOp} {op : BinOp}
    (found : c.peek.operator? allowed = some op) :
    ∃ sign rest, c.ahead = sign :: rest ∧ sign.Spells op ∧ op ∈ allowed := by
  obtain ⟨passed, ahead, mark⟩ := c
  cases ahead with
  | nil => cases found
  | cons sign rest => exact ⟨sign, rest, rfl, Token.operatorSpells.1 found⟩

theorem splitCloses {depth : Nat} {before tokens : List Token} {group : Group}
    (found : Group.split? depth before tokens = some group) : group.closing.kind = .closing := by
  fun_induction Group.split? depth before tokens with
  | case1 => cases found
  | case2 => cases found
  | case3 _ _ _ kind =>
    cases found
    exact kind
  | case4 _ _ _ _ _ ih => exact ih found
  | case5 _ _ _ _ _ ih => exact ih found
  | case6 _ _ _ _ _ _ _ _ ih => exact ih found

theorem enclosedCases {c : Cursor} (scanned : Scanned c.ahead) (opened : c.peek.kind = .opening) :
    (∃ rest after, c.ahead = c.peek :: rest ∧ Group.split? 0 [] rest = none ∧
        Cursor.enclosed c = (.error (.parse (.unmatched c.peek.position)), after)) ∨
      ∃ inside closing after, closing.kind = .closing ∧
        Cursor.enclosed c = (.ok ⟨[], inside, ⟨"EOF", closing.position⟩⟩, after) ∧
        c.ahead = c.peek :: (inside ++ closing :: after.ahead) ∧ after.mark = c.mark ∧
        climb 0 (written inside) = some 0 := by
  obtain ⟨passed, ahead, mark⟩ := c
  cases ahead with
  | nil => cases opened
  | cons opening rest =>
    change opening.kind = .opening at opened
    cases found : Group.split? 0 [] rest with
    | none =>
      refine .inl ⟨rest, Cursor.toEnding ⟨passed, opening :: rest, mark⟩, rfl, found, ?_⟩
      simp [Cursor.enclosed, Cursor.peek, opened, found]
    | some group =>
      obtain ⟨inside, parts, same, level⟩ := splitClimb scanned.lexical.tail found
      refine .inr ⟨group.inside, group.closing,
        ⟨group.closing :: (group.inside.reverse ++ opening :: passed), group.after, mark⟩,
        splitCloses found, ?_, ?_, rfl, ?_⟩
      · simp [Cursor.enclosed, opened, found]
      · simp [Cursor.peek, parts, same]
      · simpa [same] using level

theorem atEnd {c : Cursor} (scanned : Scanned c.ahead) (ended : c.peek.kind = .ending) :
    c.ahead = [] := by
  obtain ⟨passed, ahead, mark⟩ := c
  cases ahead with
  | nil => rfl
  | cons token rest => exact absurd ended (scanned.going token (by simp))

structure Settled (g : Cursor) (result : Except Fault Expr) : Prop where
  derived : ∀ e, result = .ok e → ∃ d : Derivation .sum, Reads d e ∧ g.ahead = d.tokens
  blamed : ∀ fault, result = .error fault → Blamed .sum g.ahead g.mark fault

theorem Settled.stopped {g : Cursor} {fault : Fault} (blamed : Blamed .sum g.ahead g.mark fault) :
    Settled g (.error fault) :=
  ⟨nofun, fun _ same => Except.error.inj same ▸ blamed⟩

structure Peels (g p : Cursor) : Prop where
  part : p.ahead ⊆ g.ahead
  settled : ∀ result, Settled p result → Settled g result

theorem withinGroup {tokens inside rest : List Token} {opening : Token}
    (parts : tokens = opening :: (inside ++ rest)) : inside ⊆ tokens := by
  intro token mem
  rw [parts]
  simp [mem]

theorem Peels.bare (g : Cursor) : Peels g g :=
  ⟨List.Subset.refl _, fun _ => id⟩

theorem Peels.pair {g p : Cursor} {inside passed : List Token} {opening closing : Token}
    (scanned : Scanned g.ahead) (opens : opening.kind = .opening)
    (closes : closing.kind = .closing) (whole : g.ahead = opening :: (inside ++ [closing]))
    (level : climb 0 (written inside) = some 0)
    (peels : Peels ⟨passed, inside, ⟨"EOF", closing.position⟩⟩ p) : Peels g p := by
  have within := withinGroup whole
  refine ⟨List.Subset.trans peels.part within, fun result settled => ?_⟩
  have settled := peels.settled result settled
  constructor
  · intro e read
    obtain ⟨d, reads, same⟩ := settled.derived e read
    let grouped : Derivation .primary := .group opening closing opens closes d
    have read : Reads grouped e := reads.group
    refine ⟨.term (.factor (.plain grouped)), read.single rfl rfl, ?_⟩
    rw [whole, show inside = _ from same]
    rfl
  · intro fault refused
    have grouped : Blamed .primary (opening :: (inside ++ [closing])) g.mark fault :=
      (settled.blamed fault refused).grouped opens closes (scanned.lexical.sub within) level
    have unsigned : ¬opening.Spells .sub := by simp [Spells, opens]
    have compound : Continues .sum .unary [] :=
      .first rfl fun operand => ⟨.term (.factor operand), rfl⟩
    rw [whole]
    exact (grouped.unsigned (by simpa using unsigned)).after compound (by simp [Lexical])

theorem peelLocated (bound : List Token) {g : Cursor} (scanned : Scanned g.ahead)
    (level : climb 0 (written g.ahead) = some 0) : ∃ p, peel bound g = .ok p ∧ Peels g p := by
  induction bound generalizing g with
  | nil => exact ⟨g, rfl, .bare g⟩
  | cons b bound ih =>
    rw [peel]
    split
    · rename_i opened
      have opens : g.peek.kind = .opening := by simpa [Cursor.isAt] using opened
      rcases enclosedCases scanned opens with ⟨rest, after, parts, lost, _⟩ |
        ⟨inside, closing, after, closes, pair, parts, _, inner⟩
      · exact absurd (parts ▸ level) (lostOpen [] (parts ▸ scanned.lexical) opens lost)
      rw [pair]
      cases ended : after.isAt .ending with
      | false => exact ⟨g, by simp only [ended]; rfl, .bare g⟩
      | true =>
        simp only [ended, if_true]
        have behind : after.ahead ⊆ g.ahead := by
          intro token mem
          rw [parts]
          simp [mem]
        have last := atEnd (scanned.within behind) (by simpa [Cursor.isAt] using ended)
        rw [last] at parts
        obtain ⟨p, peeled, peels⟩ := ih (g := ⟨[], inside, ⟨"EOF", closing.position⟩⟩)
          (scanned.within (withinGroup parts)) inner
        exact ⟨p, peeled, peels.pair scanned opens closes parts inner⟩
    · exact ⟨g, rfl, .bare g⟩

section Tiers

variable {inside : Inside}

def Locating (inside : Inside) : Prop :=
  ∀ opening g, Scanned g.ahead → Settled g (inside opening g) ∨
    inside opening g = .error (.parse (.tooDeep opening.position maxNesting))

theorem groupLocated (locating : Locating inside) {c : Cursor} (scanned : Scanned c.ahead)
    (opens : c.peek.kind = .opening) : Located .primary c (group inside c) := by
  rcases enclosedCases scanned opens with ⟨rest, after, parts, lost, refused⟩ |
    ⟨within, closing, after, closes, pair, parts, mark, level⟩
  · rw [group, bindGet, bindRefused refused]
    exact .stopped (.unclosed [] parts opens lost)
  rw [groupEnclosed pair]
  have sub := withinGroup parts
  obtain ⟨p, peeled, peels⟩ := peelLocated within
    (g := ⟨[], within, ⟨"EOF", closing.position⟩⟩) (scanned.within sub) level
  rw [peeled]
  change Located .primary c (inside c.peek p, after)
  rcases locating c.peek p (scanned.within (List.Subset.trans peels.part sub)) with
    settled | tooDeep
  · have settled := peels.settled _ settled
    cases result : inside c.peek p with
    | error fault =>
      refine .stopped ?_
      rw [parts]
      exact (settled.blamed fault result).grouped opens closes (scanned.lexical.sub sub) level
    | ok e =>
      obtain ⟨d, reads, same⟩ := settled.derived e result
      have grouped : Reads (.group c.peek closing opens closes d) e := reads.group
      refine .ok grouped ?_ mark trivial
      rw [parts, show within = _ from same]
      simp [Derivation.tokens]
  · rw [tooDeep]
    refine .stopped (.tooDeep ?_ opens)
    rw [parts]
    simp

theorem primaryLocated (locating : Locating inside) : Locates .primary (primary inside) := by
  have opens : Opens .primary [] := ⟨.name ⟨.name, "x", 0⟩ rfl, _, rfl⟩
  intro c scanned
  by_cases grouped : c.peek.kind = .opening
  · have read : primary inside c = group inside c := by
      rw [primary, bindGet]
      simp only [grouped]
    rw [read]
    exact groupLocated locating scanned grouped
  obtain ⟨passed, ahead, mark⟩ := c
  cases ahead with
  | nil => exact .stopped (.short opens fun n => ⟨.primary, by decide, rfl⟩)
  | cons token rest =>
    -- No sentence has such a token where an operand is awaited, however many groups are open.
    have misfit (stuck : ∀ n, Progress.step ⟨n, .primary⟩ token = none)
        (reported : Reported [] token token.text) :
        Blamed .primary (token :: rest) mark (.parse (.unexpected token.text token.position)) := by
      refine .misfit [] rest rfl opens (fun n => ?_) reported
      rw [List.nil_append, Progress.runCons, Tier.start, stuck, Option.bind_none]
    cases kind : token.kind with
    | numeral =>
      have value := scanned.valued token (by simp) kind
      rw [primaryNumeral kind, value]
      split
      · rename_i short
        rw [if_pos short] at value
        have reads : Reads (.numeral token kind) (.const (decimal token.text)) :=
          ⟨rfl, by simpa [Readable, Derivation.tokens] using fun _ => value⟩
        exact .ok reads rfl rfl trivial
      · rename_i long
        exact .stopped (.tooLong (by simp) kind (by omega))
    | name =>
      rw [primaryName kind]
      have reads : Reads (.name token kind) (.var token.text) :=
        ⟨rfl, by simp [Readable, Derivation.tokens, kind]⟩
      exact .ok reads rfl rfl trivial
    | opening => exact absurd kind grouped
    | ending => exact absurd kind (scanned.going token (by simp))
    | operator | closing =>
      have refused : primary inside ⟨passed, token :: rest, mark⟩ =
          (.error (.parse (.unexpected token.text token.position)),
            ⟨passed, token :: rest, mark⟩) := by
        rw [primary, bindGet]
        simp only [Cursor.peek, List.headD_cons, kind]
        rfl
      rw [refused]
      refine .stopped (misfit (by simp [Progress.step, kind]) ?_)
      first
        | exact .stray kind rfl
        | exact .plain (by simp [kind])

theorem unaryLocated (locating : Locating inside) : Locates .unary (unary inside) := by
  intro c scanned
  cases found : c.peek.operator? [.sub] with
  | none =>
    have plain : unary inside c = primary inside c := by rw [unary, bindGet, found]
    have located := primaryLocated locating c scanned
    rw [plain]
    constructor
    · intro e read
      obtain ⟨d, reads, same, mark, _⟩ := located.read e read
      exact ⟨.plain d, reads.single rfl rfl, same, mark, trivial⟩
    · intro fault refused
      refine (located.blamed fault refused).unsigned fun first head spelled => ?_
      obtain ⟨passed, ahead, mark⟩ := c
      obtain ⟨rest, rfl⟩ := List.head?_eq_some_iff.1 head
      have sign : first.operator? [.sub] = some .sub := operatorSpells.2 ⟨spelled, by simp⟩
      cases sign.symm.trans found
  | some op =>
    obtain ⟨sign, rest, next, spelled, known⟩ := peekOperator found
    obtain rfl : op = .sub := by simpa using known
    obtain ⟨passed, ahead, mark⟩ := c
    obtain rfl : ahead = sign :: rest := next
    rw [unaryMinus spelled]
    refine (primaryLocated locating _ (scanned.within (by simp))).bind (.sign spelled) scanned rfl
      rfl ?_
    intro e after d reads same mark _
    have negated : Reads (.minus sign spelled d) (.neg e) := reads.minus
    exact .ok negated (congrArg (sign :: ·) same) mark trivial

section Chains

variable {t t' : Tier} {allowed : List BinOp} {operand : Reading Expr}
  (joins : ∀ (left : Derivation t) (sign : Token) (op : BinOp) (right : Derivation t'),
    sign.Spells op → op ∈ allowed → ∃ d : Derivation t,
      d.tokens = left.tokens ++ sign :: right.tokens ∧ d.tree = .bin op left.tree right.tree)
  (compound : t'.start = .operand)
  (stops : ∀ c, Stops c t' → c.peek.operator? allowed = none → Stops c t)
  (locates : Locates t' operand)

include joins compound stops locates

theorem chainLocated (bound : List Token) (left : Expr) {start : Cursor} (d : Derivation t)
    (reads : Reads d left) (c : Cursor) (enough : c.ahead.length ≤ bound.length)
    (scanned : Scanned start.ahead) (same : start.ahead = d.tokens ++ c.ahead)
    (mark : c.mark = start.mark) (ends : Stops c t') :
    Located t start (chain allowed operand bound left c) := by
  induction bound generalizing left d c with
  | nil =>
    refine .ok reads same mark (stops c ends ?_)
    obtain ⟨passed, ahead, mark⟩ := c
    obtain rfl := List.eq_nil_of_length_eq_zero (Nat.le_zero.1 enough)
    exact noOperator allowed passed _
  | cons b bound ih =>
    cases found : c.peek.operator? allowed with
    | none =>
      rw [chainStops found]
      exact .ok reads same mark (stops c ends found)
    | some op =>
      obtain ⟨sign, rest, next, spelled, known⟩ := peekOperator found
      obtain ⟨passed, ahead, endMark⟩ := c
      obtain rfl : ahead = sign :: rest := next
      have split : start.ahead = d.tokens ++ [sign] ++ rest := by simpa using same
      rw [chainSteps spelled known]
      refine (locates _ (scanned.within (by simp [split]))).bind
        (.joined d spelled compound fun right => ?_) scanned split mark ?_
      · obtain ⟨joined, tokens, _⟩ := joins d sign op right spelled known
        exact ⟨joined, tokens⟩
      intro e after right reads' behind mark' ends'
      obtain ⟨joined, tokens, tree⟩ := joins d sign op right spelled known
      have parts : rest = right.tokens ++ after.ahead := behind
      refine ih _ joined (reads.joined reads' spelled tokens tree) after ?_ ?_ mark' ends'
      · simp only [parts, List.length_cons, List.length_append] at enough
        omega
      · rw [same, tokens, parts]
        simp

theorem tierLocated (start : t.start = t'.start) (lifts : ∀ operand : Derivation t',
    ∃ d : Derivation t, d.tokens = operand.tokens ∧ d.tree = operand.tree) :
    Locates t (tier allowed operand) := by
  intro c scanned
  rw [tier]
  refine (locates c scanned).bind (.first start fun operand => ?_) scanned rfl rfl ?_
  · obtain ⟨d, tokens, _⟩ := lifts operand
    exact ⟨d, tokens⟩
  intro e after first reads same mark ends
  obtain ⟨d, tokens, tree⟩ := lifts first
  rw [bindGet]
  exact chainLocated joins compound stops locates after.ahead e d (reads.single tokens tree) after
    (Nat.le_refl _) scanned (by rw [same, tokens]) mark ends

end Chains

theorem sumLocated (locating : Locating inside) : Locates .sum (sum inside) := by
  have product : Locates .product (product inside) := by
    refine tierLocated (fun left sign op right spelled known => ?_) rfl (fun _ _ ends => ends)
      (unaryLocated locating) rfl fun operand => ⟨.factor operand, rfl, rfl⟩
    exact ⟨.times left op sign spelled known right, rfl, rfl⟩
  have stops (c : Cursor) (ends : Stops c .product) (none : c.peek.operator? [.add, .sub] = none) :
      Stops c .sum := ⟨ends, none⟩
  refine tierLocated (fun left sign op right spelled known => ?_) rfl stops product rfl
    fun operand => ⟨.term operand, rfl, rfl⟩
  exact ⟨.plus left op sign spelled known right, rfl, rfl⟩

theorem stopsStuck {passed rest : List Token} {token : Token} {mark : EndMark}
    (stops : Stops ⟨passed, token :: rest, mark⟩ .sum) (inner : token.kind ≠ .closing) (n : Nat) :
    Progress.step ⟨n, .operator⟩ token = none := by
  cases kind : token.kind with
  | numeral | name | opening | ending => simp [Progress.step, kind]
  | closing => exact absurd kind inner
  | operator =>
    cases found : BinOp.ofSymbol? token.text with
    | none => simp [Progress.step, kind, found]
    | some op =>
      have apart := stops
      simp only [Stops, Cursor.peek, List.headD_cons, operator?, kind, if_true, found,
        Option.filter_eq_none_iff] at apart
      rcases BinOp.productOrSum op with known | known
      · exact absurd (by simpa using known) (apart.1 op rfl)
      · exact absurd (by simpa using known) (apart.2 op rfl)

theorem wholeSettled (locating : Locating inside) {c : Cursor} (scanned : Scanned c.ahead) :
    Settled c (whole inside c).1 := by
  have located := sumLocated locating c scanned
  rcases read : sum inside c with ⟨_ | e, after⟩
  · rename_i fault
    rw [whole, bindRefused read]
    exact .stopped (located.blamed fault (by rw [read]))
  obtain ⟨d, reads, same, mark, stops⟩ := located.read e (by rw [read])
  rw [read] at same mark stops
  rw [wholeRead read]
  obtain ⟨passed, ahead, endMark⟩ := after
  cases ahead with
  | nil =>
    refine ⟨fun _ whole => ⟨d, Except.ok.inj whole ▸ reads, by simpa using same⟩, ?_⟩
    intro _ refused
    cases refused
  | cons token rest =>
    change c.ahead = d.tokens ++ token :: rest at same
    rw [same] at scanned
    simp only [Cursor.peek, List.headD_cons]
    split
    · rename_i ended
      exact absurd ended (scanned.going token (by simp))
    · rename_i closes
      have level := derivationLevel d (scanned.lexical.sub (by simp))
      exact .stopped (.unopened d.tokens same closes level)
    · rename_i inner
      refine .stopped (.misfit d.tokens rest same ⟨d, [], by simp⟩ (fun n => ?_) (.plain inner))
      rw [Progress.runAppend, d.runTokens, Option.bind_some, Progress.runCons,
        stopsStuck stops inner, Option.bind_none]

theorem insideLocates (levels : Nat) : Locating (insideAt levels) := by
  induction levels with
  | zero => exact fun _ _ _ => .inr rfl
  | succ levels ih => exact fun _ _ scanned => .inl (wholeSettled ih scanned)

end Tiers

theorem sourceSettled (source : String) : Settled (Cursor.ofSource source) (ofSource source) := by
  have scanned : Scanned (Cursor.ofSource source).ahead := by
    rw [Cursor.ofSourceStart]
    exact scannedTokens source
  exact wholeSettled (insideLocates maxNesting) scanned

end ArithEquiv.Parse
