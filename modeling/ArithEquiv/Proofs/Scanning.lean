import ArithEquiv.Proofs.Grammar

/-! What scanning gives. No token is an end mark, and a numeral consists of the digits from `0` to
`9`, so that reading it gives its decimal value unless it has too many of them. -/
namespace ArithEquiv

namespace Numeral

variable {c : Char} {cs : List Char}

theorem digitBounds (digit : c.isDigit = true) :
    '0'.toNat ≤ c.toNat ∧ c.toNat ≤ '0'.toNat + 9 := by
  simp only [Char.isDigit, Bool.and_eq_true, decide_eq_true_eq] at digit
  exact digit

theorem digitValue (digit : c.isDigit = true) : digit? c = some (c.toNat - '0'.toNat) := by
  have first : zeros = '0'.toNat :: zeros.tail := rfl
  unfold digit?
  rw [first, List.find?_cons_of_pos (by simpa using digitBounds digit)]
  rfl

theorem digitsValues (nonempty : cs ≠ []) (digits : ∀ c ∈ cs, c.isDigit = true) :
    digits? cs = some (cs.map fun c => c.toNat - '0'.toNat) := by
  fun_induction digits? cs with
  | case1 => exact absurd rfl nonempty
  | case2 c => simp [digitValue (digits c (by simp))]
  | case3 c rest => simpa using digits '_' (by simp)
  | case4 c rest more _ ih =>
    have tail := ih (by simpa using more) fun c mem => digits c (by simp [mem])
    simp [digitValue (digits c (by simp)), tail]

theorem blankDigit (digit : c.isDigit = true) : Text.isBlank c = false := by
  have bounds := digitBounds digit
  simp only [Char.reduceToNat] at bounds
  simp [Text.isBlank, Text.within, Text.blankRanges]
  omega

theorem marginDigit (digit : c.isDigit = true) : isMargin c = false := by
  rw [isMargin, blankDigit digit, Bool.false_and]

theorem trimDigits (digits : ∀ c ∈ cs, c.isDigit = true) : trim cs = cs := by
  have kept {cs : List Char} (digits : ∀ c ∈ cs, c.isDigit = true) :
      cs.dropWhile isMargin = cs := by
    cases cs with
    | nil => rfl
    | cons c rest => simp [marginDigit (digits c (by simp))]
  rw [trim, kept digits, kept (by simpa using digits), List.reverse_reverse]

theorem readDecimal {text : String} (nonempty : text.toList ≠ [])
    (digits : ∀ c ∈ text.toList, c.isDigit = true) :
    read text = if text.length ≤ maxDigits then .ok (decimal text) else .error .tooLong := by
  have readValue : readDigits text.toList =
      if text.length ≤ maxDigits then .ok (decimal text) else .error .tooLong := by
    rw [readDigits, digitsValues nonempty digits]
    simp only [List.length_map, String.length_toList, value, List.foldl_map]
    rfl
  unfold read
  rw [trimDigits digits]
  split
  · rename_i rest same
    simpa using digits '-' (by rw [same]; simp)
  · rename_i rest same
    simpa using digits '+' (by rw [same]; simp)
  · rw [readValue]
    split <;> rfl

end Numeral

namespace Token

variable {source : String} {t : Token}

theorem punctuationKind {c : Char} {kind : TokenKind} (found : punctuation? c = some kind) :
    kind = .opening ∨ kind = .closing ∨ kind = .operator := by
  unfold punctuation? at found
  repeat' split at found
  all_goals cases found
  all_goals simp

theorem scannedKind (scanned : t ∈ scan source) : t.kind ≠ .ending := by
  obtain ⟨l, _, rfl⟩ := List.mem_map.1 scanned
  change l.kind ≠ .ending
  unfold Lexeme.kind
  split
  · rename_i kind found
    rcases punctuationKind found with rfl | rfl | rfl <;> decide
  · split <;> decide

theorem scannedNumeral (scanned : t ∈ scan source) (numeral : t.kind = .numeral) :
    t.value = if t.text.length ≤ Numeral.maxDigits then .ok (decimal t.text : Int)
      else .error (.numeral .tooLong) := by
  obtain ⟨l, _, rfl⟩ := List.mem_map.1 scanned
  have digits : ∀ c ∈ l.chars, c.isDigit = true := by
    change l.kind = .numeral at numeral
    unfold Lexeme.kind at numeral
    split at numeral
    · rename_i kind found
      rcases punctuationKind found with rfl | rfl | rfl <;> cases numeral
    · split at numeral
      · rename_i all
        exact List.all_eq_true.1 all
      · cases numeral
  have read : Numeral.read l.token.text = _ :=
    Numeral.readDecimal (by simp [Lexeme.token, Lexeme.chars])
      (by simpa [Lexeme.token] using digits)
  rw [value, if_pos numeral, read]
  split <;> rfl

end Token

theorem Cursor.ofSourceStart (source : String) :
    Cursor.ofSource source = ⟨[], Token.scan source, ⟨"EOF", source.length⟩⟩ := by
  unfold Cursor.ofSource Cursor.ofTokens
  split
  · rename_i none
    rw [List.getLast?_eq_none_iff.1 none]
    rfl
  · rename_i last found
    rw [if_neg (Token.scannedKind (List.mem_of_getLast? found))]
    rfl

end ArithEquiv
