import ArithEquiv.Text.Blank

/-! Decimal numerals for integers. Reading and writing stop at `maxDigits` digits. A numeral
may stand between blanks, have a sign and single underscores between its digits, and use the
decimal digits of any script; it is written with none of these but the sign. -/
namespace ArithEquiv.Numeral

def maxDigits : Nat := 4300

def ceiling : Nat := ((Nat.pow 10 43).pow 10).pow 10

theorem powInSteps (base : Nat) {a b c d : Nat} (whole : a * b * c = d) :
    ((base.pow a).pow b).pow c = base.pow d := by
  have inner : base.pow (a * b) = (base.pow a).pow b := Nat.pow_mul base a b
  have outer : base.pow (a * b * c) = (base.pow (a * b)).pow c := Nat.pow_mul base (a * b) c
  rw [← inner, ← outer, whole]

theorem powMaxDigits (base : Nat) : ((base.pow 43).pow 10).pow 10 = base.pow maxDigits :=
  powInSteps base rfl

theorem ceilingEq : ceiling = Nat.pow 10 maxDigits := by
  rw [ceiling, powMaxDigits]

def fits (n : Int) : Bool := n.natAbs < ceiling

def write (n : Int) : String :=
  if n < 0 then "-" ++ n.natAbs.repr else n.natAbs.repr

/-- The code points of the digit zero in version 14 of Unicode; each is followed by those of one
to nine. -/
def zeros : List Nat :=
  [0x30, 0x660, 0x6f0, 0x7c0, 0x966, 0x9e6, 0xa66, 0xae6, 0xb66, 0xbe6, 0xc66, 0xce6, 0xd66,
    0xde6, 0xe50, 0xed0, 0xf20, 0x1040, 0x1090, 0x17e0, 0x1810, 0x1946, 0x19d0, 0x1a80, 0x1a90,
    0x1b50, 0x1bb0, 0x1c40, 0x1c50, 0xa620, 0xa8d0, 0xa900, 0xa9d0, 0xa9f0, 0xaa50, 0xabf0,
    0xff10, 0x104a0, 0x10d30, 0x11066, 0x110f0, 0x11136, 0x111d0, 0x112f0, 0x11450, 0x114d0,
    0x11650, 0x116c0, 0x11730, 0x118e0, 0x11950, 0x11c50, 0x11d50, 0x11da0, 0x16a60, 0x16ac0,
    0x16b50, 0x1d7ce, 0x1d7d8, 0x1d7e2, 0x1d7ec, 0x1d7f6, 0x1e140, 0x1e2f0, 0x1e950, 0x1fbf0]

def digit? (c : Char) : Option Nat :=
  (zeros.find? fun start => start ≤ c.toNat && c.toNat ≤ start + 9).map (c.toNat - ·)

def digits? : List Char → Option (List Nat)
  | [] => none
  | [c] => (digit? c).map ([·])
  | c :: '_' :: rest => do
      let d ← digit? c
      let ds ← digits? rest
      some (d :: ds)
  | c :: rest => do
      let d ← digit? c
      let ds ← digits? rest
      some (d :: ds)

def value (digits : List Nat) : Nat :=
  digits.foldl (fun n d => 10 * n + d) 0

/-- Blanks allowed around a numeral: the four separators below the space are not among them. -/
def isMargin (c : Char) : Bool :=
  Text.isBlank c && !Text.within [(0x1c, 0x1f)] c

def trim (text : List Char) : List Char :=
  ((text.dropWhile isMargin).reverse.dropWhile isMargin).reverse

inductive Refusal where
  | notNumeral
  | tooLong
  deriving DecidableEq, Repr

def readDigits (text : List Char) : Except Refusal Nat :=
  match digits? text with
  | none => .error .notNumeral
  | some digits => if digits.length ≤ maxDigits then .ok (value digits) else .error .tooLong

def read (text : String) : Except Refusal Int :=
  match trim text.toList with
  | '-' :: rest => (readDigits rest).map fun n => -(n : Int)
  | '+' :: rest => (readDigits rest).map Int.ofNat
  | rest => (readDigits rest).map Int.ofNat

end ArithEquiv.Numeral
