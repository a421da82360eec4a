import ArithEquiv.Text.Ranges

/-! Blank characters: spaces, tabs, line and paragraph ends of every script. They part text
and belong to none of it. -/
namespace ArithEquiv.Text

def blankRanges : List (Nat × Nat) :=
  [(0x9, 0xd), (0x1c, 0x20), (0x85, 0x85), (0xa0, 0xa0), (0x1680, 0x1680), (0x2000, 0x200a),
    (0x2028, 0x2029), (0x202f, 0x202f), (0x205f, 0x205f), (0x3000, 0x3000)]

def isBlank (c : Char) : Bool := within blankRanges c

theorem blankApart : apart blankRanges = true := by decide

end ArithEquiv.Text
