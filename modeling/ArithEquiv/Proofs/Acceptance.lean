import ArithEquiv.Proofs.Locating

/-! What is read has been derived. Reading takes up the tokens of a derivation or refuses them, for
one of four reasons: a token that does not fit, a parenthesis without its partner, a group too
deep, or a numeral too long. -/
namespace ArithEquiv.Parse

inductive Refused (tokens : List Token) : Fault → Prop where
  | unexpected (text : String) (position : Int) :
      Refused tokens (.parse (.unexpected text position))
  | unmatched (position : Int) : Refused tokens (.parse (.unmatched position))
  | tooDeep (position : Int) : Refused tokens (.parse (.tooDeep position maxNesting))
  | tooLong (token : Token) (mem : token ∈ tokens) (numeral : token.kind = .numeral)
      (long : Numeral.maxDigits < token.text.length) : Refused tokens (.numeral .tooLong)

theorem Blamed.refused {t : Tier} {ahead : List Token} {mark : EndMark} {fault : Fault}
    (blamed : Blamed t ahead mark fault) : Refused ahead fault := by
  cases blamed with
  | misfit | short => exact .unexpected _ _
  | unclosed | unopened => exact .unmatched _
  | tooDeep => exact .tooDeep _
  | tooLong mem numeral long => exact .tooLong _ mem numeral long

structure Explained (tokens : List Token) (result : Except Fault Expr) : Prop where
  derived : ∀ e, result = .ok e → ∃ d : Derivation .sum, tokens = d.tokens
  refused : ∀ fault, result = .error fault → Refused tokens fault

section Sources

variable (source : String)

theorem sourceExplained : Explained (Token.scan source) (ofSource source) := by
  have settled := sourceSettled source
  rw [Cursor.ofSourceStart] at settled
  refine ⟨fun e read => ?_, fun fault refused => (settled.blamed fault refused).refused⟩
  obtain ⟨d, _, same⟩ := settled.derived e read
  exact ⟨d, same⟩

theorem sourceOutcome (short : ∀ token ∈ Token.scan source, token.kind = .numeral →
    token.text.length ≤ Numeral.maxDigits) (d : Derivation .sum)
    (derived : d.tokens = Token.scan source) : ofSource source = outcome d 0 := by
  have readable : Readable d.tokens := by
    intro token mem numeral
    rw [derived] at mem
    rw [Token.scannedNumeral mem numeral, if_pos (short token mem numeral)]
  rw [ofSource, ofCursor, Cursor.ofSourceStart, ← derived]
  exact (followsDerivation d 0 maxNesting rfl readable).whole _

end Sources

/- Groups are listed as their parentheses follow one another in the text: `groupsInOrder`. -/
theorem ofSourceGrammar (source : String) (short : ∀ token ∈ Token.scan source,
    token.kind = .numeral → token.text.length ≤ Numeral.maxDigits) :
    (∀ d : Derivation .sum, d.tokens = Token.scan source →
      ((∀ g ∈ d.groups 0, g.2 ≤ maxNesting) → ofSource source = .ok d.tree) ∧
      ∀ g, (d.groups 0).find? (fun g => maxNesting < g.2) = some g →
        ofSource source = .error (.parse (.tooDeep g.1.position maxNesting))) ∧
    ((¬∃ d : Derivation .sum, d.tokens = Token.scan source) → ∀ e, ofSource source ≠ .ok e) := by
  refine ⟨fun d derived => ⟨fun shallow => ?_, fun g first => ?_⟩, fun apart e read => ?_⟩
  · have none : tooDeep? d 0 = none := by
      refine List.find?_eq_none.2 fun g mem => ?_
      simpa using shallow g mem
    rw [sourceOutcome source short d derived, outcome, none]
  · have found : tooDeep? d 0 = some g := first
    rw [sourceOutcome source short d derived, outcome, found]
    rfl
  · obtain ⟨d, derived⟩ := (sourceExplained source).derived e read
    exact apart ⟨d, derived.symm⟩

theorem ofSourceGrammarMinus :
    ofSource "-(a)*2 - b" = .ok (.bin .sub (.bin .mul (.neg (.var "a")) (.const 2)) (.var "b")) := by
  let name (text : String) (position : Int) : Derivation .primary :=
    .name ⟨.name, text, position⟩ rfl
  let negative : Derivation .unary := .minus ⟨.operator, "-", 0⟩ ⟨rfl, rfl⟩
    (.group ⟨.opening, "(", 1⟩ ⟨.closing, ")", 3⟩ rfl rfl (.term (.factor (.plain (name "a" 2)))))
  let doubled : Derivation .product := .times (.factor negative) .mul ⟨.operator, "*", 4⟩
    ⟨rfl, rfl⟩ (by simp) (.plain (.numeral ⟨.numeral, "2", 5⟩ rfl))
  exact ((ofSourceGrammar "-(a)*2 - b" (by decide +kernel)).1
    (.plus (.term doubled) .sub ⟨.operator, "-", 7⟩ ⟨rfl, rfl⟩ (by simp)
      (.factor (.plain (name "b" 9)))) (by decide +kernel)).1 (by decide +kernel)

end ArithEquiv.Parse
