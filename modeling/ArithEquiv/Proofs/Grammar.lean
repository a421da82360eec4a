import ArithEquiv.Parse

/-! The grammar of expressions. A primary is a numeral, a name or a sum in parentheses, a unary
a primary with at most one minus, a product unaries joined by `*` and `/`, and a sum products
joined by `+` and `-`. A derivation spells out which rule was used where, gives the tokens it
derives and the tree it means, and says how deep its groups lie. -/
namespace ArithEquiv

inductive Tier where
  | primary
  | unary
  | product
  | sum
  deriving DecidableEq, Repr

def Token.Spells (t : Token) (op : BinOp) : Prop := t.kind = .operator ∧ t.text = op.symbol

theorem Token.operatorSpells {t : Token} {allowed : List BinOp} {op : BinOp} :
    t.operator? allowed = some op ↔ t.Spells op ∧ op ∈ allowed := by
  have symbols : BinOp.ofSymbol? t.text = some op ↔ t.text = op.symbol := by
    constructor
    · intro found
      unfold BinOp.ofSymbol? at found
      repeat' split at found
      all_goals cases found
      all_goals assumption
    · intro spelled
      rw [spelled, BinOp.ofSymbolSymbol]
  unfold operator?
  split <;> rename_i kind
  · rw [Option.filter_eq_some_iff, symbols]
    simp [Spells, kind]
  · simp [Spells, kind]

/- Joined operands are derived from the left: a product or sum is its first operand, or a
shorter one with an operator and one more operand. -/
inductive Derivation : Tier → Type where
  | numeral (token : Token) (kind : token.kind = .numeral) : Derivation .primary
  | name (token : Token) (kind : token.kind = .name) : Derivation .primary
  | group (opening closing : Token) (opens : opening.kind = .opening)
      (closes : closing.kind = .closing) (inside : Derivation .sum) : Derivation .primary
  | plain (operand : Derivation .primary) : Derivation .unary
  | minus (sign : Token) (spelled : sign.Spells .sub) (operand : Derivation .primary) :
      Derivation .unary
  | factor (operand : Derivation .unary) : Derivation .product
  | times (left : Derivation .product) (op : BinOp) (sign : Token) (spelled : sign.Spells op)
      (allowed : op ∈ [BinOp.mul, .div]) (right : Derivation .unary) : Derivation .product
  | term (operand : Derivation .product) : Derivation .sum
  | plus (left : Derivation .sum) (op : BinOp) (sign : Token) (spelled : sign.Spells op)
      (allowed : op ∈ [BinOp.add, .sub]) (right : Derivation .product) : Derivation .sum

def decimal (text : String) : Nat :=
  text.toList.foldl (fun n c => 10 * n + (c.toNat - '0'.toNat)) 0

namespace Derivation

def tokens : {t : Tier} → Derivation t → List Token
  | _, .numeral token _ => [token]
  | _, .name token _ => [token]
  | _, .group opening closing _ _ inside => opening :: (inside.tokens ++ [closing])
  | _, .plain operand => operand.tokens
  | _, .minus sign _ operand => sign :: operand.tokens
  | _, .factor operand => operand.tokens
  | _, .times left _ sign _ _ right => left.tokens ++ sign :: right.tokens
  | _, .term operand => operand.tokens
  | _, .plus left _ sign _ _ right => left.tokens ++ sign :: right.tokens

def tree : {t : Tier} → Derivation t → Expr
  | _, .numeral token _ => .const (decimal token.text)
  | _, .name token _ => .var token.text
  | _, .group _ _ _ _ inside => inside.tree
  | _, .plain operand => operand.tree
  | _, .minus _ _ operand => .neg operand.tree
  | _, .factor operand => operand.tree
  | _, .times left op _ _ _ right => .bin op left.tree right.tree
  | _, .term operand => operand.tree
  | _, .plus left op _ _ _ right => .bin op left.tree right.tree

def core : {t : Tier} → Derivation t → Option (Derivation .sum)
  | _, .group _ _ _ _ inside => some (inside.core.getD inside)
  | _, .plain operand => operand.core
  | _, .factor operand => operand.core
  | _, .term operand => operand.core
  | _, _ => none

def peeled (d : Derivation .sum) : Derivation .sum := d.core.getD d

/-- The groups in the order of the text, each by its outermost opening parenthesis and its level,
where `level` groups lie around all of them. A pair around nothing but another pair is one group
with it. -/
def groups : {t : Tier} → Derivation t → (level : Nat) → List (Token × Nat)
  | _, .numeral _ _, _ => []
  | _, .name _ _, _ => []
  | _, .group opening _ _ _ inside, level =>
      (opening, level + 1) ::
        if inside.core.isSome then (inside.groups level).tail else inside.groups (level + 1)
  | _, .plain operand, level => operand.groups level
  | _, .minus _ _ operand, level => operand.groups level
  | _, .factor operand, level => operand.groups level
  | _, .times left _ _ _ _ right, level => left.groups level ++ right.groups level
  | _, .term operand, level => operand.groups level
  | _, .plus left _ _ _ _ right, level => left.groups level ++ right.groups level

variable {t : Tier}

theorem peeledInduction {motive : {t : Tier} → Derivation t → Prop}
    (numeral : ∀ token kind, motive (.numeral token kind))
    (name : ∀ token kind, motive (.name token kind))
    (group : ∀ opening closing opens closes inside, motive inside.peeled →
      motive (.group opening closing opens closes inside))
    (plain : ∀ operand, motive operand → motive (.plain operand))
    (minus : ∀ sign spelled operand, motive operand → motive (.minus sign spelled operand))
    (factor : ∀ operand, motive operand → motive (.factor operand))
    (times : ∀ left op sign spelled allowed right, motive left → motive right →
      motive (.times left op sign spelled allowed right))
    (term : ∀ operand, motive operand → motive (.term operand))
    (plus : ∀ left op sign spelled allowed right, motive left → motive right →
      motive (.plus left op sign spelled allowed right))
    (d : Derivation t) : motive d := by
  suffices both : motive d ∧ ∀ inner ∈ d.core, motive inner from both.1
  induction d with
  | numeral token kind => exact ⟨numeral token kind, by simp [core]⟩
  | name token kind => exact ⟨name token kind, by simp [core]⟩
  | group opening closing opens closes inside ih =>
    have peeled : motive inside.peeled := by
      unfold Derivation.peeled
      cases found : inside.core with
      | none => exact ih.1
      | some inner => exact ih.2 inner found
    refine ⟨group _ _ _ _ _ peeled, ?_⟩
    intro inner found
    cases Option.some.inj found
    exact peeled
  | plain operand ih => exact ⟨plain _ ih.1, ih.2⟩
  | minus sign spelled operand ih => exact ⟨minus _ _ _ ih.1, by simp [core]⟩
  | factor operand ih => exact ⟨factor _ ih.1, ih.2⟩
  | times left op sign spelled allowed right ihl ihr =>
    exact ⟨times _ _ _ _ _ _ ihl.1 ihr.1, by simp [core]⟩
  | term operand ih => exact ⟨term _ ih.1, ih.2⟩
  | plus left op sign spelled allowed right ihl ihr =>
    exact ⟨plus _ _ _ _ _ _ ihl.1 ihr.1, by simp [core]⟩

theorem treeCore {d : Derivation t} {inner : Derivation .sum} (found : d.core = some inner) :
    d.tree = inner.tree := by
  induction d generalizing inner with
  | numeral | name | minus | times | plus => cases found
  | group opening closing opens closes inside ih =>
    cases found
    cases deeper : inside.core with
    | none => rfl
    | some inner => exact ih deeper
  | plain operand ih => exact ih found
  | factor operand ih => exact ih found
  | term operand ih => exact ih found

theorem treePeeled (d : Derivation .sum) : d.peeled.tree = d.tree := by
  unfold peeled
  cases found : d.core with
  | none => rfl
  | some inner => exact (treeCore found).symm

theorem tokensCore {d : Derivation t} {inner : Derivation .sum} (found : d.core = some inner) :
    inner.tokens ⊆ d.tokens := by
  induction d generalizing inner with
  | numeral | name | minus | times | plus => cases found
  | group opening closing opens closes inside ih =>
    cases found
    have below : (inside.core.getD inside).tokens ⊆ inside.tokens := by
      cases deeper : inside.core with
      | none => exact List.Subset.refl _
      | some inner => exact ih deeper
    intro token mem
    simp [tokens, below mem]
  | plain operand ih => exact ih found
  | factor operand ih => exact ih found
  | term operand ih => exact ih found

theorem tokensPeeled (d : Derivation .sum) : d.peeled.tokens ⊆ d.tokens := by
  unfold peeled
  cases found : d.core with
  | none => exact List.Subset.refl _
  | some inner => exact tokensCore found

theorem groupsCore {d : Derivation t} {inner : Derivation .sum} (found : d.core = some inner)
    (level : Nat) :
    ∃ opening, d.groups level = (opening, level + 1) :: inner.groups (level + 1) := by
  induction d generalizing inner with
  | numeral | name | minus | times | plus => cases found
  | group opening closing opens closes inside ih =>
    cases found
    refine ⟨opening, ?_⟩
    rw [groups]
    cases deeper : inside.core with
    | none => rfl
    | some inner =>
      obtain ⟨below, same⟩ := ih deeper
      rw [same]
      rfl
  | plain operand ih => exact ih found
  | factor operand ih => exact ih found
  | term operand ih => exact ih found

theorem groupsPeeled (opening closing : Token) (opens closes) (inside : Derivation .sum)
    (level : Nat) :
    (group opening closing opens closes inside).groups level =
      (opening, level + 1) :: inside.peeled.groups (level + 1) := by
  rw [groups, peeled]
  cases found : inside.core with
  | none => rfl
  | some inner =>
    obtain ⟨below, same⟩ := groupsCore found level
    rw [same]
    rfl

theorem groupsInOrder (d : Derivation t) (level : Nat) :
    ((d.groups level).map Prod.fst).Sublist d.tokens := by
  induction d generalizing level with
  | numeral | name => exact List.nil_sublist _
  | group opening closing opens closes inside ih =>
    rw [groups, tokens, List.map_cons]
    refine .cons_cons _ (.trans ?_ (List.sublist_append_left _ _))
    split
    · rw [List.map_tail]
      exact (List.tail_sublist _).trans (ih level)
    · exact ih (level + 1)
  | plain operand ih => exact ih level
  | minus sign spelled operand ih => exact (ih level).cons _
  | factor operand ih => exact ih level
  | times left op sign spelled allowed right ihl ihr =>
    rw [groups, tokens, List.map_append]
    exact (ihl level).append ((ihr level).cons _)
  | term operand ih => exact ih level
  | plus left op sign spelled allowed right ihl ihr =>
    rw [groups, tokens, List.map_append]
    exact (ihl level).append ((ihr level).cons _)

theorem kindOperator {sign : Token} {op : BinOp} (spelled : sign.Spells op) :
    sign.kind ≠ .ending := by
  rw [spelled.1]
  decide

theorem noEnding (d : Derivation t) : ∀ token ∈ d.tokens, token.kind ≠ .ending := by
  induction d with
  | numeral token kind => simp [tokens, kind]
  | name token kind => simp [tokens, kind]
  | group opening closing opens closes inside ih =>
    simpa [tokens, opens, closes, or_imp, forall_and] using ih
  | plain operand ih => exact ih
  | minus sign spelled operand ih =>
    simpa [tokens] using ⟨kindOperator spelled, ih⟩
  | factor operand ih => exact ih
  | times left op sign spelled allowed right ihl ihr =>
    simpa [tokens, or_imp, forall_and] using ⟨ihl, kindOperator spelled, ihr⟩
  | term operand ih => exact ih
  | plus left op sign spelled allowed right ihl ihr =>
    simpa [tokens, or_imp, forall_and] using ⟨ihl, kindOperator spelled, ihr⟩

end Derivation

namespace Group

variable {token : Token} (depth : Nat) (before rest : List Token)

theorem splitOpening (kind : token.kind = .opening) :
    split? depth before (token :: rest) = split? (depth + 1) (token :: before) rest := by
  simp [split?, kind]

theorem splitClosing (kind : token.kind = .closing) :
    split? (depth + 1) before (token :: rest) = split? depth (token :: before) rest := by
  simp [split?, kind]

theorem splitFound (kind : token.kind = .closing) :
    split? 0 before (token :: rest) = some ⟨before.reverse, token, rest⟩ := by
  simp [split?, kind]

theorem splitInner (inner : token.kind ≠ .opening ∧ token.kind ≠ .closing ∧ token.kind ≠ .ending) :
    split? depth before (token :: rest) = split? depth (token :: before) rest := by
  cases found : token.kind <;> simp_all [split?]

def Closed (tokens : List Token) : Prop :=
  ∃ inside closing after, ∀ rest,
    split? 0 [] (tokens ++ rest) = some ⟨inside, closing, after ++ rest⟩

theorem Closed.append {tokens : List Token} (closed : Closed tokens) (more : List Token) :
    Closed (tokens ++ more) := by
  obtain ⟨inside, closing, after, found⟩ := closed
  refine ⟨inside, closing, after ++ more, fun rest => ?_⟩
  rw [List.append_assoc, found, List.append_assoc]

end Group

namespace Derivation

variable {t : Tier}

theorem splitSign {sign : Token} {op : BinOp} (spelled : sign.Spells op) (depth : Nat)
    (before rest : List Token) :
    Group.split? depth before (sign :: rest) = Group.split? depth (sign :: before) rest :=
  Group.splitInner depth before rest (by rw [spelled.1]; decide)

theorem splitPast (d : Derivation t) (depth : Nat) (before rest : List Token) :
    Group.split? depth before (d.tokens ++ rest) =
      Group.split? depth (d.tokens.reverse ++ before) rest := by
  induction d generalizing depth before rest with
  | numeral token kind => exact Group.splitInner depth before rest (by rw [kind]; decide)
  | name token kind => exact Group.splitInner depth before rest (by rw [kind]; decide)
  | group opening closing opens closes inside ih =>
    calc Group.split? depth before (opening :: (inside.tokens ++ [closing]) ++ rest)
      _ = Group.split? (depth + 1) (opening :: before) (inside.tokens ++ closing :: rest) := by
        rw [List.cons_append, Group.splitOpening _ _ _ opens, List.append_assoc]
        rfl
      _ = Group.split? depth (closing :: (inside.tokens.reverse ++ opening :: before)) rest := by
        rw [ih, Group.splitClosing _ _ _ closes]
      _ = _ := by simp [tokens]
  | plain operand ih => exact ih depth before rest
  | minus sign spelled operand ih =>
    rw [tokens, List.cons_append, splitSign spelled, ih]
    simp
  | factor operand ih => exact ih depth before rest
  | times left op sign spelled allowed right ihl ihr =>
    rw [tokens, List.append_assoc, ihl, List.cons_append, splitSign spelled, ihr]
    simp
  | term operand ih => exact ih depth before rest
  | plus left op sign spelled allowed right ihl ihr =>
    rw [tokens, List.append_assoc, ihl, List.cons_append, splitSign spelled, ihr]
    simp

theorem tokensNonempty (d : Derivation t) : ∃ first more, d.tokens = first :: more := by
  have front {xs ys : List Token} (some : ∃ first more, xs = first :: more) :
      ∃ first more, xs ++ ys = first :: more := by
    obtain ⟨first, more, rfl⟩ := some
    exact ⟨first, more ++ ys, rfl⟩
  induction d with
  | numeral | name | group | minus => exact ⟨_, _, rfl⟩
  | plain operand ih => exact ih
  | factor operand ih => exact ih
  | times left op sign spelled allowed right ihl _ => exact front ihl
  | term operand ih => exact ih
  | plus left op sign spelled allowed right ihl _ => exact front ihl

theorem splitFirst (d : Derivation t) {opening : Token} {more : List Token}
    (first : d.tokens = opening :: more) (opens : opening.kind = .opening) :
    Group.Closed more := by
  induction d generalizing more with
  | numeral token kind =>
    cases first
    cases opens.symm.trans kind
  | name token kind =>
    cases first
    cases opens.symm.trans kind
  | group start closing starts closes inside ih =>
    cases first
    refine ⟨inside.tokens, closing, [], fun rest => ?_⟩
    rw [List.append_assoc, splitPast, List.append_nil, List.singleton_append,
      Group.splitFound _ _ closes, List.reverse_reverse]
    rfl
  | plain operand ih => exact ih first
  | minus sign spelled operand ih =>
    cases first
    cases opens.symm.trans spelled.1
  | factor operand ih => exact ih first
  | times left op sign spelled allowed right ihl _ =>
    obtain ⟨token, front, same⟩ := left.tokensNonempty
    rw [tokens, same] at first
    cases first
    exact (ihl same).append _
  | term operand ih => exact ih first
  | plus left op sign spelled allowed right ihl _ =>
    obtain ⟨token, front, same⟩ := left.tokensNonempty
    rw [tokens, same] at first
    cases first
    exact (ihl same).append _

end Derivation

end ArithEquiv
