import ArithEquiv.Proofs.Grammar

/-! Beginnings of sentences. What may come next depends on how many groups are open and on whether
an operand is awaited or stands complete; a token that does not fit there is in no sentence that
begins so. Which operator binds closer does not matter for that. -/
namespace ArithEquiv

inductive Awaited where
  | operand
  | primary
  | operator
  deriving DecidableEq, Repr

structure Progress where
  opened : Nat
  awaited : Awaited
  deriving DecidableEq, Repr

namespace Progress

def step (p : Progress) (t : Token) : Option Progress :=
  match p.awaited, t.kind with
  | .operator, .operator =>
    if (BinOp.ofSymbol? t.text).isSome then some ⟨p.opened, .operand⟩ else none
  | .operator, .closing =>
    match p.opened with
    | 0 => none
    | opened + 1 => some ⟨opened, .operator⟩
  | .operator, _ => none
  | .operand, .operator => if t.text = BinOp.sub.symbol then some ⟨p.opened, .primary⟩ else none
  | _, .numeral => some ⟨p.opened, .operator⟩
  | _, .name => some ⟨p.opened, .operator⟩
  | _, .opening => some ⟨p.opened + 1, .operand⟩
  | _, _ => none

def run (p : Progress) (tokens : List Token) : Option Progress := tokens.foldlM step p

theorem runAppend (p : Progress) (tokens rest : List Token) :
    p.run (tokens ++ rest) = (p.run tokens).bind (·.run rest) :=
  List.foldlM_append

theorem runCons (p : Progress) (t : Token) (rest : List Token) :
    p.run (t :: rest) = (p.step t).bind (·.run rest) :=
  List.foldlM_cons

end Progress

theorem BinOp.productOrSum (op : BinOp) : op ∈ [BinOp.mul, .div] ∨ op ∈ [BinOp.add, .sub] := by
  cases op <;> simp

def Tier.start : Tier → Awaited
  | .primary => .primary
  | .unary | .product | .sum => .operand

section Steps

variable {token : Token} {n : Nat}

theorem stepOperand (kind : token.kind = .numeral ∨ token.kind = .name) :
    Progress.step ⟨n, .primary⟩ token = some ⟨n, .operator⟩ := by
  rcases kind with kind | kind <;> simp [Progress.step, kind]

theorem stepOpening (kind : token.kind = .opening) :
    Progress.step ⟨n, .primary⟩ token = some ⟨n + 1, .operand⟩ := by
  simp [Progress.step, kind]

theorem stepClosing (kind : token.kind = .closing) :
    Progress.step ⟨n + 1, .operator⟩ token = some ⟨n, .operator⟩ := by
  simp [Progress.step, kind]

theorem stepOperator {op : BinOp} (spelled : token.Spells op) :
    Progress.step ⟨n, .operator⟩ token = some ⟨n, .operand⟩ := by
  simp [Progress.step, spelled.1, spelled.2, BinOp.ofSymbolSymbol]

theorem stepSign (spelled : token.Spells .sub) :
    Progress.step ⟨n, .operand⟩ token = some ⟨n, .primary⟩ := by
  simp [Progress.step, spelled.1, spelled.2]

theorem stepUnsigned (unsigned : ¬token.Spells .sub) :
    Progress.step ⟨n, .operand⟩ token = Progress.step ⟨n, .primary⟩ token := by
  cases kind : token.kind <;> simp_all [Progress.step, Token.Spells]

theorem runUnsigned {rest : List Token} (unsigned : ¬token.Spells .sub) :
    Progress.run ⟨n, .operand⟩ (token :: rest) = Progress.run ⟨n, .primary⟩ (token :: rest) := by
  rw [Progress.runCons, Progress.runCons, stepUnsigned unsigned]

end Steps

namespace Derivation

variable {t : Tier}

theorem firstUnsigned (d : Derivation .primary) :
    ∃ first more, d.tokens = first :: more ∧ ¬first.Spells .sub := by
  cases d with
  | numeral token kind => exact ⟨_, _, rfl, by simp [Token.Spells, kind]⟩
  | name token kind => exact ⟨_, _, rfl, by simp [Token.Spells, kind]⟩
  | group opening closing opens => exact ⟨_, _, rfl, by simp [Token.Spells, opens]⟩

theorem runTokens (d : Derivation t) (n : Nat) :
    Progress.run ⟨n, t.start⟩ d.tokens = some ⟨n, .operator⟩ := by
  induction d generalizing n with
  | numeral token kind =>
    rw [tokens, Progress.runCons, Tier.start, stepOperand (.inl kind)]
    rfl
  | name token kind =>
    rw [tokens, Progress.runCons, Tier.start, stepOperand (.inr kind)]
    rfl
  | group opening closing opens closes inside ih =>
    have within : Progress.run ⟨n + 1, .operand⟩ inside.tokens = some ⟨n + 1, .operator⟩ := ih _
    rw [tokens, Progress.runCons, Tier.start, stepOpening opens, Option.bind_some,
      Progress.runAppend, within, Option.bind_some, Progress.runCons, stepClosing closes]
    rfl
  | plain operand ih =>
    obtain ⟨first, more, same, unsigned⟩ := operand.firstUnsigned
    have unsignedRun : Progress.run ⟨n, .primary⟩ operand.tokens = some ⟨n, .operator⟩ := ih n
    rw [tokens, Tier.start, same, runUnsigned unsigned, ← same, unsignedRun]
  | minus sign spelled operand ih =>
    have behind : Progress.run ⟨n, .primary⟩ operand.tokens = some ⟨n, .operator⟩ := ih n
    rw [tokens, Progress.runCons, Tier.start, stepSign spelled, Option.bind_some, behind]
  | factor operand ih => exact ih n
  | times left op sign spelled allowed right ihl ihr =>
    rw [tokens, Progress.runAppend, ihl, Option.bind_some, Progress.runCons,
      stepOperator spelled, Option.bind_some]
    exact ihr n
  | term operand ih => exact ih n
  | plus left op sign spelled allowed right ihl ihr =>
    rw [tokens, Progress.runAppend, ihl, Option.bind_some, Progress.runCons,
      stepOperator spelled, Option.bind_some]
    exact ihr n

end Derivation

def Opens (t : Tier) (tokens : List Token) : Prop :=
  ∃ (d : Derivation t) (more : List Token), d.tokens = tokens ++ more

theorem Opens.runs {t : Tier} {tokens : List Token} (opens : Opens t tokens) (n : Nat) :
    Progress.run ⟨n, t.start⟩ tokens ≠ none := by
  obtain ⟨d, more, split⟩ := opens
  have run := d.runTokens n
  rw [split, Progress.runAppend] at run
  intro stuck
  rw [stuck] at run
  cases run

end ArithEquiv
