import ArithEquiv.Token.Scan

/-! A cursor stands in a list of tokens that closes with an end mark. It can look at the next
token, step over it, or step over a group in parentheses. No step leads past an end mark,
also not past one in the middle of the tokens; a step that fails still says where it stopped. -/
namespace ArithEquiv

structure EndMark where
  text : String
  position : Int
  deriving DecidableEq, Repr

def EndMark.token (mark : EndMark) : Token := ⟨.ending, mark.text, mark.position⟩

structure Cursor where
  /-- The tokens stepped over, the last one first. -/
  passed : List Token
  ahead : List Token
  mark : EndMark
  deriving DecidableEq, Repr

abbrev Reading := ExceptT Fault (StateM Cursor)

structure Group where
  inside : List Token
  closing : Token
  after : List Token
  deriving DecidableEq, Repr

/-- Splits the tokens at the parenthesis that closes a group opened just before them, where
`depth` more groups are open. There is none if an end mark comes first. -/
def Group.split? : (depth : Nat) → (inside : List Token) → List Token → Option Group
  | _, _, [] => none
  | depth, inside, t :: rest =>
    match t.kind, depth with
    | .ending, _ => none
    | .closing, 0 => some ⟨inside.reverse, t, rest⟩
    | .closing, depth + 1 => split? depth (t :: inside) rest
    | .opening, depth => split? (depth + 1) (t :: inside) rest
    | _, depth => split? depth (t :: inside) rest

theorem Group.splitTokens {depth : Nat} {inside tokens : List Token} {group : Group}
    (found : split? depth inside tokens = some group) :
    inside.reverse ++ tokens = group.inside ++ group.closing :: group.after := by
  fun_induction split? depth inside tokens with
  | case1 => cases found
  | case2 => cases found
  | case3 => cases found; rfl
  | case4 _ _ _ _ _ ih => simpa using ih found
  | case5 _ _ _ _ _ ih => simpa using ih found
  | case6 _ _ _ _ _ _ _ _ ih => simpa using ih found

namespace Cursor

def ofTokens (tokens : List Token) (position : Option Int) : Cursor :=
  match tokens.getLast? with
  | none => ⟨[], [], ⟨"EOF", position.getD 0⟩⟩
  | some last =>
    if last.kind = .ending then ⟨[], tokens.dropLast, ⟨last.text, last.position⟩⟩
    else ⟨[], tokens, ⟨"EOF", position.getD (last.position + last.text.length)⟩⟩

def ofSource (source : String) : Cursor :=
  ofTokens (Token.scan source) (some source.length)

def remaining (c : Cursor) : List Token := c.ahead ++ [c.mark.token]

def tokens (c : Cursor) : List Token := c.passed.reverse ++ c.remaining

def rewind (c : Cursor) : Cursor := { c with passed := [], ahead := c.passed.reverse ++ c.ahead }

def peek (c : Cursor) : Token := c.ahead.headD c.mark.token

def isAt (c : Cursor) (kind : TokenKind) : Bool := c.peek.kind == kind

def toEnding (c : Cursor) : Cursor :=
  { c with
    passed := (c.ahead.takeWhile (·.kind != .ending)).reverse ++ c.passed
    ahead := c.ahead.dropWhile (·.kind != .ending) }

def advance : Reading Token := fun c =>
  match c.ahead with
  | [] => (.error (.parse (.exhausted c.mark.position)), c)
  | t :: rest =>
    if t.kind = .ending then (.error (.parse (.exhausted t.position)), c)
    else (.ok t, { c with passed := t :: c.passed, ahead := rest })

def enclosed : Reading Cursor := fun c =>
  match c.ahead with
  | [] => (.error (.misuse (.notOpening c.mark.text)), c)
  | opening :: rest =>
    if opening.kind = .opening then
      match Group.split? 0 [] rest with
      | none => (.error (.parse (.unmatched opening.position)), c.toEnding)
      | some group =>
        (.ok ⟨[], group.inside, ⟨"EOF", group.closing.position⟩⟩,
          { c with
            passed := group.closing :: (group.inside.reverse ++ opening :: c.passed)
            ahead := group.after })
    else (.error (.misuse (.notOpening opening.text)), c)

theorem tokensRewind (c : Cursor) : c.rewind.tokens = c.tokens := by
  simp [tokens, remaining, rewind]

theorem tokensToEnding (c : Cursor) : c.toEnding.tokens = c.tokens := by
  simp only [tokens, remaining, toEnding, List.reverse_append, List.reverse_reverse,
    List.append_assoc]
  rw [← List.append_assoc (List.takeWhile _ _), List.takeWhile_append_dropWhile]

theorem tokensAdvance (c : Cursor) : (advance c).2.tokens = c.tokens := by
  unfold advance
  split
  · rfl
  · rename_i t rest ahead
    split
    · rfl
    · simp [tokens, remaining, ahead]

theorem tokensEnclosed (c : Cursor) : (enclosed c).2.tokens = c.tokens := by
  unfold enclosed
  split
  · rfl
  · rename_i opening rest ahead
    split
    · split
      · exact tokensToEnding c
      · rename_i group found
        have parts := Group.splitTokens found
        simp only [List.reverse_nil, List.nil_append] at parts
        simp [tokens, remaining, ahead, parts]
    · rfl

end Cursor

end ArithEquiv
