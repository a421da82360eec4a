import ArithEquiv.Fault

/-! Tokens: a kind, the text and where in the source its first character stood. Tokens that come
from elsewhere may stand at any position, also before the start of a source. -/
namespace ArithEquiv

inductive TokenKind where
  | numeral
  | name
  | operator
  | opening
  | closing
  | ending
  deriving DecidableEq, Repr

structure Token where
  kind : TokenKind
  text : String
  position : Int
  deriving DecidableEq, Repr

namespace Token

def value (t : Token) : Except Fault Int :=
  if t.kind = .numeral then
    (Numeral.read t.text).mapError Fault.numeral
  else .error (.misuse (.notNumeral t.text))

def operator? (allowed : List BinOp) (t : Token) : Option BinOp :=
  if t.kind = .operator then (BinOp.ofSymbol? t.text).filter allowed.contains else none

end Token

end ArithEquiv
