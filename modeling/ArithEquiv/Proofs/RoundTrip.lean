import ArithEquiv.Expr.Checked
import ArithEquiv.Proofs.Acceptance

/-! Reading undoes writing. Whatever can be read is written as text that is read as the same tree
again, unless its groups lie too deep: every call stands in a group of its own, and so does the
argument of every negation, where the two pairs around a call are one group. -/
namespace ArithEquiv

open Token

inductive Legible : Expr → Prop where
  | const {value : Int} (unsigned : 0 ≤ value) (built : Expr.ofConst value = .ok (.const value)) :
      Legible (.const value)
  | var {name : String} (nonempty : name ≠ "")
      (plain : ∀ c ∈ name.toList, Text.isBlank c = false ∧ c ∉ delimiters)
      (some : ∃ c ∈ name.toList, c.isDigit = false) : Legible (.var name)
  | neg {arg : Expr} (inner : Legible arg) : Legible (.neg arg)
  | bin {op : BinOp} {left right : Expr} (first : Legible left) (second : Legible right) :
      Legible (.bin op left right)

namespace Expr

def isCall : Expr → Bool
  | .bin .. => true
  | _ => false

def nesting : Expr → Nat
  | .bin _ left right => 1 + max left.nesting right.nesting
  | .neg arg => if arg.isCall then arg.nesting else 1 + arg.nesting
  | _ => 0

end Expr

def BinOp.terminal : BinOp → Terminal
  | .add => .plus
  | .sub => .minus
  | .mul => .star
  | .div => .slash

def Expr.pieces : Expr → List (Terminal × List Char)
  | .const value => [(.word, (Numeral.write value).toList)]
  | .var name => [(.word, name.toList)]
  | .neg arg => (.minus, ['-']) :: (.opening, ['(']) :: (arg.pieces ++ [(.closing, [')'])])
  | .bin op left right =>
      (.opening, ['(']) :: (left.pieces ++ (op.terminal, op.symbol.toList) ::
        (right.pieces ++ [(.closing, [')'])]))
  | .flat .. => []

section Numerals

variable {value : Int} {text : String}

theorem writeUnsigned (unsigned : 0 ≤ value) : Numeral.write value = value.natAbs.repr := by
  rw [Numeral.write, if_neg (by omega)]

theorem writtenDigits (unsigned : 0 ≤ value) :
    ∀ c ∈ (Numeral.write value).toList, c.isDigit = true := by
  intro c mem
  rw [writeUnsigned unsigned, Nat.toList_repr] at mem
  exact Nat.isDigit_of_mem_toDigits (by decide) (by decide) mem

theorem decimalWritten (unsigned : 0 ≤ value) : (decimal (Numeral.write value) : Int) = value := by
  have same : decimal (Numeral.write value) = value.natAbs := by
    rw [writeUnsigned unsigned, decimal, Nat.toList_repr, ← Nat.ofDigitChars_eq_foldl]
    exact Nat.ofDigitChars_toDigits (by decide) (by decide)
  rw [same, Int.natAbs_of_nonneg unsigned]

theorem builtFits : Expr.ofConst value = .ok (.const value) ↔ value.natAbs < Numeral.ceiling := by
  by_cases fits : value.natAbs < Numeral.ceiling <;> simp [Expr.ofConst, Numeral.fits, fits]

theorem reprShort {n k : Nat} (positive : 0 < k) (below : n < Nat.pow 10 k) : n.repr.length ≤ k :=
  (Nat.length_repr_le_iff positive).2 below

theorem writtenShort (unsigned : 0 ≤ value) (built : Expr.ofConst value = .ok (.const value)) :
    (Numeral.write value).length ≤ Numeral.maxDigits := by
  have below := builtFits.1 built
  rw [Numeral.ceilingEq] at below
  rw [writeUnsigned unsigned]
  exact reprShort (by decide) below

theorem digitsBelow {cs : List Char} (digits : ∀ c ∈ cs, c.isDigit = true) (n : Nat) :
    cs.foldl (fun n c => 10 * n + (c.toNat - '0'.toNat)) n < (n + 1) * Nat.pow 10 cs.length := by
  induction cs generalizing n with
  | nil => simp
  | cons c cs ih =>
    have bounds := Numeral.digitBounds (digits c (by simp))
    have small : c.toNat - '0'.toNat ≤ 9 := by omega
    have below := ih (fun c mem => digits c (by simp [mem])) (10 * n + (c.toNat - '0'.toNat))
    refine Nat.lt_of_lt_of_le below ?_
    have tenfold : Nat.pow 10 (c :: cs).length = 10 * Nat.pow 10 cs.length := Nat.mul_comm _ 10
    rw [tenfold, ← Nat.mul_assoc]
    exact Nat.mul_le_mul_right _ (by omega)

theorem decimalBelow {k : Nat} (digits : ∀ c ∈ text.toList, c.isDigit = true)
    (short : text.length ≤ k) : decimal text < Nat.pow 10 k := by
  have below := digitsBelow digits 0
  rw [Nat.zero_add, Nat.one_mul, String.length_toList] at below
  exact Nat.lt_of_lt_of_le below (Nat.pow_le_pow_right (by decide) short)

theorem decimalBuilt (digits : ∀ c ∈ text.toList, c.isDigit = true)
    (short : text.length ≤ Numeral.maxDigits) :
    Expr.ofConst (decimal text) = .ok (.const (decimal text)) := by
  refine builtFits.2 ?_
  rw [Numeral.ceilingEq]
  exact decimalBelow digits short

end Numerals

section Pieces

variable {e : Expr}

theorem digitPlain {c : Char} (digit : c.isDigit = true) :
    Text.isBlank c = false ∧ c ∉ delimiters := by
  refine ⟨Numeral.blankDigit digit, fun delimiter => ?_⟩
  simp only [delimiters, List.mem_cons, List.not_mem_nil, or_false] at delimiter
  rcases delimiter with rfl | rfl | rfl | rfl | rfl | rfl <;> cases digit

theorem BinOp.terminalMatches (op : BinOp) :
    op.terminal.Matches op.symbol.toList ∧ op.terminal ≠ .word := by
  cases op <;> exact ⟨rfl, by decide⟩

theorem compactAppend (a b : String) : compact (a ++ b) = compact a ++ compact b := by
  simp [compact]

theorem compactPlain {text : String}
    (plain : ∀ c ∈ text.toList, Text.isBlank c = false ∧ c ∉ delimiters) :
    compact text = text.toList :=
  List.filter_eq_self.2 fun c mem => by simp [(plain c mem).1]

theorem compactOperator (op : BinOp) : compact (" " ++ op.symbol ++ " ") = op.symbol.toList := by
  cases op <;> decide

theorem compactRender (legible : Legible e) : compact e.render = e.pieces.flatMap Prod.snd := by
  induction legible with
  | const unsigned built =>
    rw [Expr.renderConst, compactPlain fun c mem => digitPlain (writtenDigits unsigned c mem)]
    simp [Expr.pieces]
  | var nonempty plain some =>
    rw [Expr.renderVar, compactPlain plain]
    simp [Expr.pieces]
  | neg _ ih =>
    rw [Expr.renderNeg, compactAppend, compactAppend, ih]
    simp [Expr.pieces, compact, Text.isBlank, Text.within, Text.blankRanges]
  | @bin op _ _ _ _ ihl ihr =>
    rw [Expr.renderBin, compactAppend, compactAppend, compactAppend, compactAppend, ihl, ihr,
      compactOperator]
    simp [Expr.pieces, compact, Text.isBlank, Text.within, Text.blankRanges]

theorem Token.Matched.delimiter {terminal : Terminal} {text rest : List Char}
    {pieces : List (Terminal × List Char)} (fits : terminal.Matches text ∧ terminal ≠ .word)
    (more : Matched rest pieces) : Matched (text ++ rest) ((terminal, text) :: pieces) :=
  .next fits.1 (fun _ _ => longestMatch fits.1 fun word => absurd word fits.2) more

theorem Token.Matched.word {text rest : List Char} {pieces : List (Terminal × List Char)}
    (nonempty : text ≠ []) (plain : ∀ c ∈ text, c ∉ delimiters)
    (ends : ∀ c ∈ rest.head?, c ∈ delimiters) (more : Matched rest pieces) :
    Matched (text ++ rest) ((.word, text) :: pieces) :=
  have fits : Terminal.word.Matches text := ⟨nonempty, plain⟩
  .next fits (fun _ _ => longestMatch fits fun _ => ends) more

theorem matchedPieces (legible : Legible e) {rest : List Char}
    {more : List (Terminal × List Char)} (ends : ∀ c ∈ rest.head?, c ∈ delimiters)
    (matched : Matched rest more) :
    Matched (e.pieces.flatMap Prod.snd ++ rest) (e.pieces ++ more) := by
  induction legible generalizing rest more with
  | const unsigned built =>
    simp only [Expr.pieces, List.flatMap_cons, List.flatMap_nil, List.append_nil]
    refine .word ?_ (fun c mem => (digitPlain (writtenDigits unsigned c mem)).2) ends matched
    rw [writeUnsigned unsigned, Nat.toList_repr]
    exact Nat.toDigits_ne_nil
  | var nonempty plain some =>
    simp only [Expr.pieces, List.flatMap_cons, List.flatMap_nil, List.append_nil]
    exact .word (by simpa using nonempty) (fun c mem => (plain c mem).2) ends matched
  | neg _ ih =>
    have closed : Matched ([')'] ++ rest) ((.closing, [')']) :: more) :=
      .delimiter ⟨rfl, by decide⟩ matched
    have inner := ih (by simp [delimiters]) closed
    have opened : Matched (['('] ++ _) ((.opening, ['(']) :: _) := .delimiter ⟨rfl, by decide⟩ inner
    have signed : Matched (['-'] ++ _) ((.minus, ['-']) :: _) := .delimiter ⟨rfl, by decide⟩ opened
    simpa [Expr.pieces] using signed
  | @bin op _ _ _ _ ihl ihr =>
    have closed : Matched ([')'] ++ rest) ((.closing, [')']) :: more) :=
      .delimiter ⟨rfl, by decide⟩ matched
    have second := Matched.delimiter op.terminalMatches (ihr (by simp [delimiters]) closed)
    have first := ihl ?_ second
    · have opened : Matched (['('] ++ _) ((.opening, ['(']) :: _) := .delimiter ⟨rfl, by decide⟩ first
      simpa [Expr.pieces] using opened
    · cases op <;> simp [BinOp.symbol, delimiters]

def Expr.looks (e : Expr) : List (TokenKind × String) :=
  e.pieces.map fun piece => (piece.1.kind piece.2, String.ofList piece.2)

theorem scanRender (legible : Legible e) : (scan e.render).map look = e.looks := by
  obtain ⟨pieces, matched, tokens⟩ := matchedTokens e.render
  have written := matchedPieces legible (by simp) Matched.done
  rw [List.append_nil, List.append_nil, ← compactRender legible] at written
  rw [ofPiecesLook tokens, matched.unique written, Expr.looks]

end Pieces

def Nested {t : Tier} (d : Derivation t) (n : Nat) : Prop :=
  ∀ level limit, level ≤ limit → ((∀ g ∈ d.groups level, g.2 ≤ limit) ↔ level + n ≤ limit)

section Nested

variable {t t' t'' : Tier} {n m : Nat} {opening closing : Token} {opens : opening.kind = .opening}
  {closes : closing.kind = .closing} {inside : Derivation .sum}

theorem nestedLeaf {d : Derivation t} (none : ∀ level, d.groups level = []) : Nested d 0 := by
  intro level limit room
  simp [none, room]

theorem nestedGroup (apart : inside.core = none) (nested : Nested inside n) :
    Nested (.group opening closing opens closes inside) (1 + n) := by
  intro level limit room
  rw [Derivation.groupsPeeled, Derivation.peeled, apart, Option.getD_none, List.forall_mem_cons]
  have within := nested (level + 1) limit
  constructor
  · rintro ⟨outer, inner⟩
    have := (within outer).1 inner
    omega
  · intro fits
    have outer : level + 1 ≤ limit := by omega
    exact ⟨outer, (within outer).2 (by omega)⟩

/- A pair around another pair is no group of its own. -/
theorem nestedPair {core : Derivation .sum} (found : inside.core = some core)
    (nested : Nested inside n) : Nested (.group opening closing opens closes inside) n := by
  intro level limit room
  obtain ⟨first, same⟩ := Derivation.groupsCore found level
  rw [← nested level limit room, Derivation.groupsPeeled, Derivation.peeled, found,
    Option.getD_some, same]
  simp

theorem nestedJoined {d : Derivation t} {left : Derivation t'} {right : Derivation t''}
    (groups : ∀ level, d.groups level = left.groups level ++ right.groups level)
    (first : Nested left n) (second : Nested right m) : Nested d (max n m) := by
  intro level limit room
  simp only [groups, List.mem_append, or_imp, forall_and, first level limit room,
    second level limit room]
  omega

end Nested

structure Spelt (tokens : List Token) (e : Expr) (d : Derivation .unary) : Prop where
  tokens : d.tokens = tokens
  tree : d.tree = e
  core : d.core.isSome = e.isCall
  nested : Nested d e.nesting

section Spelt

variable {e : Expr} {tokens : List Token}

theorem looksGroup {inner : List (TokenKind × String)}
    (same : tokens.map look = (.opening, "(") :: (inner ++ [(.closing, ")")])) :
    ∃ opening inside closing, tokens = opening :: (inside ++ [closing]) ∧
      opening.kind = .opening ∧ closing.kind = .closing ∧ inside.map look = inner := by
  obtain ⟨opening, rest, rfl, first, same⟩ := List.map_eq_cons_iff.1 same
  obtain ⟨inside, last, rfl, within, same⟩ := List.map_eq_append_iff.1 same
  obtain ⟨closing, none, rfl, ends, same⟩ := List.map_eq_cons_iff.1 same
  obtain rfl := List.map_eq_nil_iff.1 same
  exact ⟨opening, inside, closing, rfl, congrArg Prod.fst first, congrArg Prod.fst ends, within⟩

theorem looksSpell {sign : Token} {op : BinOp} (same : look sign = (.operator, op.symbol)) :
    sign.Spells op :=
  ⟨congrArg Prod.fst same, congrArg Prod.snd same⟩

theorem looksConst {value : Int} (unsigned : 0 ≤ value) :
    (Expr.const value).looks = [(.numeral, Numeral.write value)] := by
  simpa [Expr.looks, Expr.pieces, Terminal.kind] using writtenDigits unsigned

theorem looksVar {name : String} (some : ∃ c ∈ name.toList, c.isDigit = false) :
    (Expr.var name).looks = [(.name, name)] := by
  simpa [Expr.looks, Expr.pieces, Terminal.kind] using some

theorem looksNeg {arg : Expr} : (Expr.neg arg).looks =
    (.operator, BinOp.sub.symbol) :: (.opening, "(") :: (arg.looks ++ [(.closing, ")")]) := by
  simp [Expr.looks, Expr.pieces, Terminal.kind, BinOp.symbol]

theorem looksBin {op : BinOp} {left right : Expr} : (Expr.bin op left right).looks =
    (.opening, "(") :: ((left.looks ++ (.operator, op.symbol) :: right.looks) ++
      [(.closing, ")")]) := by
  cases op <;> simp [Expr.looks, Expr.pieces, Terminal.kind, BinOp.symbol, BinOp.terminal]

theorem Spelt.negated {arg : Expr} {sign opening closing : Token} {d : Derivation .unary}
    (spelled : sign.Spells .sub) (opens : opening.kind = .opening)
    (closes : closing.kind = .closing) (spelt : Spelt tokens arg d) :
    ∃ d, Spelt (sign :: opening :: (tokens ++ [closing])) (.neg arg) d := by
  let inside : Derivation .sum := .term (.factor d)
  refine ⟨.minus sign spelled (.group opening closing opens closes inside), ?_, ?_, rfl, ?_⟩
  · simp [Derivation.tokens, inside, spelt.tokens]
  · exact congrArg Expr.neg spelt.tree
  · have nested : Nested inside arg.nesting := spelt.nested
    rw [Expr.nesting]
    split
    · rename_i call
      obtain ⟨core, found⟩ := Option.isSome_iff_exists.1 (spelt.core.trans call)
      exact nestedPair found nested
    · rename_i other
      have none : d.core = none := by simpa [other] using spelt.core
      exact nestedGroup none nested

theorem Spelt.called {op : BinOp} {left right : Expr} {sign opening closing : Token}
    {front back : List Token} {first second : Derivation .unary} (spelled : sign.Spells op)
    (opens : opening.kind = .opening) (closes : closing.kind = .closing)
    (speltLeft : Spelt front left first) (speltRight : Spelt back right second) :
    ∃ d, Spelt (opening :: ((front ++ sign :: back) ++ [closing])) (.bin op left right) d := by
  have joined : ∃ inside : Derivation .sum, inside.tokens = front ++ sign :: back ∧
      inside.tree = .bin op left right ∧ inside.core = none ∧
      Nested inside (max left.nesting right.nesting) := by
    have nestedLeft : Nested (.factor first) left.nesting := speltLeft.nested
    have nestedRight : Nested (.factor second) right.nesting := speltRight.nested
    rcases op.productOrSum with known | known
    · refine ⟨.term (.times (.factor first) op sign spelled known second), ?_, ?_, rfl, ?_⟩
      · simp [Derivation.tokens, speltLeft.tokens, speltRight.tokens]
      · simp [Derivation.tree, speltLeft.tree, speltRight.tree]
      · exact nestedJoined (fun _ => rfl) nestedLeft nestedRight
    · refine ⟨.plus (.term (.factor first)) op sign spelled known (.factor second), ?_, ?_, rfl, ?_⟩
      · simp [Derivation.tokens, speltLeft.tokens, speltRight.tokens]
      · simp [Derivation.tree, speltLeft.tree, speltRight.tree]
      · exact nestedJoined (fun _ => rfl) nestedLeft nestedRight
  obtain ⟨inside, tokens, tree, apart, nested⟩ := joined
  refine ⟨.plain (.group opening closing opens closes inside), ?_, tree, rfl, ?_⟩
  · simp [Derivation.tokens, tokens]
  · exact nestedGroup apart nested

theorem legibleSpelt (legible : Legible e) (same : tokens.map look = e.looks) :
    ∃ d, Spelt tokens e d := by
  induction legible generalizing tokens with
  | const unsigned built =>
    rw [looksConst unsigned] at same
    obtain ⟨token, none, rfl, word, same⟩ := List.map_eq_cons_iff.1 same
    obtain rfl := List.map_eq_nil_iff.1 same
    have text : token.text = _ := congrArg Prod.snd word
    refine ⟨.plain (.numeral token (congrArg Prod.fst word)), rfl, ?_, rfl, nestedLeaf fun _ => rfl⟩
    simp [Derivation.tree, text, decimalWritten unsigned]
  | var nonempty plain some =>
    rw [looksVar some] at same
    obtain ⟨token, none, rfl, word, same⟩ := List.map_eq_cons_iff.1 same
    obtain rfl := List.map_eq_nil_iff.1 same
    refine ⟨.plain (.name token (congrArg Prod.fst word)), rfl, ?_, rfl, nestedLeaf fun _ => rfl⟩
    exact congrArg Expr.var (congrArg Prod.snd word)
  | neg _ ih =>
    rw [looksNeg] at same
    obtain ⟨sign, rest, rfl, first, same⟩ := List.map_eq_cons_iff.1 same
    obtain ⟨opening, inside, closing, rfl, opens, closes, within⟩ := looksGroup same
    obtain ⟨d, spelt⟩ := ih within
    exact spelt.negated (looksSpell first) opens closes
  | bin _ _ ihl ihr =>
    rw [looksBin] at same
    obtain ⟨opening, inside, closing, rfl, opens, closes, within⟩ := looksGroup same
    obtain ⟨front, behind, rfl, left, within⟩ := List.map_eq_append_iff.1 within
    obtain ⟨sign, back, rfl, operator, right⟩ := List.map_eq_cons_iff.1 within
    obtain ⟨first, speltLeft⟩ := ihl left
    obtain ⟨second, speltRight⟩ := ihr right
    exact speltLeft.called (looksSpell operator) opens closes speltRight

theorem looksShort (legible : Legible e) {text : String} (word : (.numeral, text) ∈ e.looks) :
    text.length ≤ Numeral.maxDigits := by
  induction legible with
  | const unsigned built =>
    rw [looksConst unsigned] at word
    cases List.mem_singleton.1 word
    exact writtenShort unsigned built
  | var nonempty plain some =>
    rw [looksVar some] at word
    cases List.mem_singleton.1 word
  | neg _ ih =>
    rw [looksNeg] at word
    exact ih (by simpa using word)
  | bin _ _ ihl ihr =>
    rw [looksBin] at word
    simp only [List.mem_cons, List.mem_append, Prod.mk.injEq, reduceCtorEq, false_and, false_or,
      List.not_mem_nil, or_false] at word
    exact word.elim ihl ihr

end Spelt

section Sources

theorem renderOutcome {e : Expr} (legible : Legible e) :
    ∃ d : Derivation .sum, d.tree = e ∧ Nested d e.nesting ∧
      Parse.ofSource e.render = Parse.outcome d 0 := by
  obtain ⟨d, spelt⟩ := legibleSpelt legible (scanRender legible)
  refine ⟨.term (.factor d), spelt.tree, spelt.nested, ?_⟩
  refine Parse.sourceOutcome e.render (fun token mem numeral => ?_) _ spelt.tokens
  have word : (TokenKind.numeral, token.text) ∈ e.looks := by
    rw [← scanRender legible, ← numeral]
    exact List.mem_map_of_mem mem
  exact looksShort legible word

theorem scannedPlain {source : String} {token : Token} (mem : token ∈ scan source) :
    ∀ c ∈ token.text.toList, Text.isBlank c = false := by
  intro c mem'
  have within : c ∈ compact source := by
    rw [← scannedWhole]
    exact List.mem_flatMap.2 ⟨token, mem, mem'⟩
  simpa using (List.mem_filter.1 within).2

def Meant (token : Token) : Prop :=
  (token.kind = .name → Legible (.var token.text)) ∧
    (token.kind = .numeral → Legible (.const (decimal token.text)))

theorem scannedMeant {source : String} {token : Token} (mem : token ∈ scan source)
    (value : token.kind = .numeral → token.value = .ok (decimal token.text : Int)) :
    Meant token := by
  have spelled := scannedLexical source token mem
  constructor
  · intro kind
    rw [kind] at spelled
    cases spelled with
    | name nonempty plain some =>
      refine .var (by simpa using nonempty) (fun c mem' => ?_) some
      exact ⟨scannedPlain mem c mem', plain c mem'⟩
  · intro kind
    have value := value kind
    rw [scannedNumeral mem kind] at value
    rw [kind] at spelled
    cases spelled with
    | numeral nonempty digits =>
      split at value
      · rename_i short
        exact .const (Int.natCast_nonneg _) (decimalBuilt digits short)
      · cases value

theorem treeLegible {t : Tier} (d : Derivation t) (meant : ∀ token ∈ d.tokens, Meant token) :
    Legible d.tree := by
  induction d with
  | numeral token kind => exact (meant token (List.mem_singleton.2 rfl)).2 kind
  | name token kind => exact (meant token (List.mem_singleton.2 rfl)).1 kind
  | group opening closing opens closes inside ih =>
    exact ih fun token mem => meant token (by simp [Derivation.tokens, mem])
  | plain operand ih => exact ih meant
  | minus sign spelled operand ih =>
    exact .neg (ih fun token mem => meant token (List.mem_cons_of_mem _ mem))
  | factor operand ih => exact ih meant
  | times left op sign spelled allowed right ihl ihr =>
    have first := ihl fun token mem => meant token (by simp [Derivation.tokens, mem])
    exact .bin first (ihr fun token mem => meant token (by simp [Derivation.tokens, mem]))
  | term operand ih => exact ih meant
  | plus left op sign spelled allowed right ihl ihr =>
    have first := ihl fun token mem => meant token (by simp [Derivation.tokens, mem])
    exact .bin first (ihr fun token mem => meant token (by simp [Derivation.tokens, mem]))

theorem readLegible {source : String} {e : Expr} (read : Parse.ofSource source = .ok e) :
    Legible e := by
  obtain ⟨d, reads, same⟩ := (Parse.sourceSettled source).derived e read
  rw [Cursor.ofSourceStart] at same
  rw [← reads.tree]
  refine treeLegible d fun token mem => ?_
  have scanned : token ∈ scan source := by
    rw [← same] at mem
    exact mem
  exact scannedMeant scanned (reads.readable token mem)

end Sources

theorem parseRender :
    (∀ source e, Parse.ofSource source = .ok e → Legible e) ∧
    ∀ e, Legible e →
      (e.nesting ≤ Parse.maxNesting → Parse.ofSource e.render = .ok e) ∧
      (Parse.maxNesting < e.nesting → ∃ position, Parse.ofSource e.render =
        .error (.parse (.tooDeep position Parse.maxNesting))) := by
  refine ⟨fun source e read => readLegible read, fun e legible => ?_⟩
  obtain ⟨d, tree, nested, read⟩ := renderOutcome legible
  have within := nested 0 Parse.maxNesting (Nat.zero_le _)
  rw [Nat.zero_add] at within
  rw [read, Parse.outcome]
  constructor
  · intro shallow
    have none : Parse.tooDeep? d 0 = none :=
      List.find?_eq_none.2 fun g mem => by simpa using within.2 shallow g mem
    rw [none, tree]
  · intro deep
    cases found : Parse.tooDeep? d 0 with
    | none =>
      have shallow := within.1 fun g mem => by simpa using List.find?_eq_none.1 found g mem
      omega
    | some g => exact ⟨g.1.position, rfl⟩

theorem parseRenderNegation :
    Parse.ofSource (Expr.neg (.bin .mul (.neg (.var "a")) (.const 2))).render =
      .ok (.neg (.bin .mul (.neg (.var "a")) (.const 2))) := by
  have name : Legible (.var "a") := by
    refine .var (by decide) (fun c mem => ?_) ⟨'a', by decide, by decide⟩
    obtain rfl : c = 'a' := by simpa using mem
    decide
  have two : Legible (.const 2) := .const (by decide) (by decide +kernel)
  exact (parseRender.2 _ (.neg (.bin (.neg name) two))).1 (by decide)

end ArithEquiv
