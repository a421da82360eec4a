import ArithEquiv.Token.Basic
import ArithEquiv.Text.Blank

/-! Splitting text into tokens, which never fails. Blanks are dropped first, so they part no
word; then each operator and parenthesis is a token, and so is every longest run of other
characters between them. -/
namespace ArithEquiv

abbrev Mark := Char × Nat

namespace Token

def marks (source : String) : List Mark :=
  source.toList.zipIdx.filter fun mark => !Text.isBlank mark.1

def punctuation? (c : Char) : Option TokenKind :=
  if c = '(' then some .opening
  else if c = ')' then some .closing
  else if c = '+' ∨ c = '-' ∨ c = '*' ∨ c = '/' then some .operator
  else none

structure Lexeme where
  position : Nat
  first : Char
  more : List Char
  deriving DecidableEq, Repr

namespace Lexeme

def chars (l : Lexeme) : List Char := l.first :: l.more

/-- The mark in front of the lexemes that follow it: a part of the next one if both are words. -/
def attach (mark : Mark) : List Lexeme → List Lexeme
  | [] => [⟨mark.2, mark.1, []⟩]
  | next :: rest =>
    if (punctuation? mark.1).isSome || (punctuation? next.first).isSome then
      ⟨mark.2, mark.1, []⟩ :: next :: rest
    else ⟨mark.2, mark.1, next.chars⟩ :: rest

def kind (l : Lexeme) : TokenKind :=
  match punctuation? l.first with
  | some kind => kind
  | none => if l.chars.all Char.isDigit then .numeral else .name

def token (l : Lexeme) : Token := ⟨l.kind, String.ofList l.chars, l.position⟩

end Lexeme

def lexemes (source : String) : List Lexeme :=
  (marks source).foldr Lexeme.attach []

theorem attachChars (mark : Mark) (ls : List Lexeme) :
    (Lexeme.attach mark ls).flatMap Lexeme.chars = mark.1 :: ls.flatMap Lexeme.chars := by
  cases ls with
  | nil => rfl
  | cons next rest =>
    simp only [Lexeme.attach]
    split <;> rfl

theorem lexemesChars (source : String) :
    (lexemes source).flatMap Lexeme.chars = (marks source).map Prod.fst := by
  unfold lexemes
  induction marks source with
  | nil => rfl
  | cons mark rest ih => rw [List.foldr_cons, attachChars, ih, List.map_cons]

def scan (source : String) : List Token :=
  (lexemes source).map Lexeme.token

end Token

end ArithEquiv
