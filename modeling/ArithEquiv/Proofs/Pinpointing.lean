import ArithEquiv.Proofs.Locating

/-! A refused source is blamed where it is wrong: at the first token that no sentence goes on with,
at a parenthesis without a partner, or at one that opens a group too deep. Positions are those of
the source as it was given, with its blanks. -/
namespace ArithEquiv.Parse

open Token

structure Breaks (source : String) (before : List Token) (token : Token) (p : Nat) : Prop where
  split : ∃ after, scan source = before ++ token :: after
  viable : Opens .sum before
  first : ¬Opens .sum (before ++ [token])
  place : token.position = p
  here : source.toList[p]? = token.text.toList.head?

inductive FaultAt (source : String) : ParseFault → Prop where
  | unexpected {before : List Token} {token : Token} {p : Nat}
      (breaks : Breaks source before token p)
      (lone : token.kind = .closing → ¬Partnered source.toList p) :
      FaultAt source (.unexpected token.text p)
  | groupEnd {before : List Token} {token : Token} {p : Nat}
      (breaks : Breaks source before token p) (closes : token.kind = .closing)
      (partner : Partnered source.toList p) : FaultAt source (.unexpected "EOF" p)
  | cutShort (viable : Opens .sum (scan source))
      (incomplete : ¬∃ d : Derivation .sum, d.tokens = scan source) :
      FaultAt source (.unexpected "EOF" source.length)
  | unmatched {p : Nat} (paren : source.toList[p]? = some '(' ∨ source.toList[p]? = some ')')
      (alone : ¬Partnered source.toList p) : FaultAt source (.unmatched p)
  | tooDeep {p : Nat} (opening : source.toList[p]? = some '(') :
      FaultAt source (.tooDeep p maxNesting)

section Places

variable {source : String} {before inside rest : List Token} {token opening : Token}

theorem spelledOpening {text : List Char} (spelled : Spelled .opening text) : text = ['('] := by
  cases spelled
  rfl

theorem spelledClosing {text : List Char} (spelled : Spelled .closing text) : text = [')'] := by
  cases spelled
  rfl

theorem compactLevel {front : List Char} (level : climb 0 (written before) = some 0)
    (lead : front.filter (!Text.isBlank ·) = written before) : climb 0 front = some 0 := by
  rw [← climbCompact, lead, level]

theorem openingAt (split : scan source = before ++ opening :: rest)
    (kind : opening.kind = .opening) :
    ∃ front back, source.toList = front ++ '(' :: back ∧ opening.position = front.length ∧
      front.filter (!Text.isBlank ·) = written before ∧
      back.filter (!Text.isBlank ·) = written rest := by
  have spelled : Spelled opening.kind opening.text.toList :=
    scannedLexical source opening (by simp [split])
  obtain ⟨front, back, whole, position, lead, behind, head⟩ := scannedAt split
  rw [writtenOpening spelled kind] at behind
  rw [kind] at spelled
  rw [spelledOpening spelled, List.head?_cons, List.head?_eq_some_iff] at head
  obtain ⟨back, rfl⟩ := head
  rw [List.filter_cons_of_pos (by decide)] at behind
  exact ⟨front, back, whole, position, lead, (List.cons.inj behind).2⟩

theorem closingAt (split : scan source = before ++ token :: rest)
    (kind : token.kind = .closing) :
    ∃ front back, source.toList = front ++ ')' :: back ∧ token.position = front.length ∧
      front.filter (!Text.isBlank ·) = written before := by
  have spelled : Spelled token.kind token.text.toList :=
    scannedLexical source token (by simp [split])
  obtain ⟨front, back, whole, position, lead, _, head⟩ := scannedAt split
  rw [kind] at spelled
  rw [spelledClosing spelled, List.head?_cons, List.head?_eq_some_iff] at head
  obtain ⟨back, rfl⟩ := head
  exact ⟨front, back, whole, position, lead⟩

theorem partnered (split : scan source = before ++ opening :: (inside ++ token :: rest))
    (opens : opening.kind = .opening) (closes : token.kind = .closing)
    (level : climb 0 (written inside) = some 0) {p : Nat} (place : token.position = p) :
    Partnered source.toList p := by
  obtain ⟨front, back, whole, _, lead, _⟩ := openingAt split opens
  have split' : scan source = (before ++ opening :: inside) ++ token :: rest := by simp [split]
  obtain ⟨front', back', whole', place', lead'⟩ := closingAt split' closes
  have spelled := scannedLexical source opening (by simp [split])
  rw [writtenAppend, writtenOpening spelled opens, ← lead] at lead'
  -- The start of the group comes first, since more is written before its end.
  rcases List.append_eq_append_iff.1 (whole.symm.trans whole') with
    ⟨between, rfl, parts⟩ | ⟨between, rfl, -⟩
  · rw [List.filter_append] at lead'
    have written' := List.append_cancel_left lead'
    cases between with
    | nil => cases written'
    | cons c between =>
      obtain ⟨rfl, rfl⟩ := List.cons.inj parts
      rw [List.filter_cons_of_pos (by decide)] at written'
      have closed := compactLevel level (List.cons.inj written').2
      refine ⟨front, between, back', whole, balancedOfClimb closed, .inr ?_⟩
      exact Int.ofNat.inj (place.symm.trans place')
  · have lengths := congrArg List.length lead'
    simp only [List.filter_append, List.length_append, List.length_cons] at lengths
    omega

theorem Breaks.reported {text : String} {p : Nat} (breaks : Breaks source before token p)
    (reported : Reported before token text) : FaultAt source (.unexpected text p) := by
  obtain ⟨rest, split⟩ := breaks.split
  cases reported with
  | plain inner => exact .unexpected breaks fun closes => absurd closes inner
  | stray closes level =>
    obtain ⟨front, back, whole, place, lead⟩ := closingAt split closes
    obtain rfl := Int.ofNat.inj (breaks.place.symm.trans place)
    refine .unexpected breaks fun _ => ?_
    rw [whole]
    exact closesAlone (compactLevel level lead)
  | @groupEnd front inside opening closes split' opens level =>
    have whole : scan source = front ++ opening :: (inside ++ token :: rest) := by
      simp [split, split']
    exact .groupEnd breaks closes (partnered whole opens closes level breaks.place)

end Places

theorem faultsPinpointed (source : String) (cause : ParseFault)
    (refused : ofSource source = .error (.parse cause)) : FaultAt source cause := by
  have blamed := (sourceSettled source).blamed _ refused
  rw [Cursor.ofSourceStart] at blamed
  change Blamed .sum (scan source) ⟨"EOF", source.length⟩ _ at blamed
  cases blamed with
  | @misfit before rest token text split opens dead reported =>
    obtain ⟨front, back, whole, place, _, _, head⟩ := scannedAt split
    have here : source.toList[front.length]? = token.text.toList.head? := by
      rw [whole, List.getElem?_append_right (Nat.le_refl _), Nat.sub_self, ← List.head?_eq_getElem?,
        head]
    have breaks : Breaks source before token front.length :=
      ⟨⟨rest, split⟩, opens, fun more => more.runs 0 (dead 0), place, here⟩
    rw [place]
    exact breaks.reported reported
  | short opens wanting =>
    refine .cutShort opens ?_
    rintro ⟨d, same⟩
    obtain ⟨next, apart, led⟩ := wanting 0
    have complete := d.runTokens 0
    rw [same] at complete
    cases complete.symm.trans led
    exact apart rfl
  | @unclosed before rest opening split kind lost =>
    obtain ⟨front, back, whole, place, _, behind⟩ := openingAt split kind
    have lasts : climb 0 back ≠ none := by
      rw [← climbCompact, behind]
      exact splitLost ((scannedLexical source).sub (by simp [split])) lost
    rw [place]
    refine .unmatched (.inl (by simp [whole])) ?_
    rw [whole]
    exact opensAlone lasts
  | @unopened before rest closing split kind level =>
    obtain ⟨front, back, whole, place, lead⟩ := closingAt split kind
    rw [place]
    refine .unmatched (.inr (by simp [whole])) ?_
    rw [whole]
    exact closesAlone (compactLevel level lead)
  | @tooDeep opening mem kind =>
    obtain ⟨before, rest, split⟩ := List.append_of_mem mem
    obtain ⟨front, back, whole, place, _, _⟩ := openingAt split kind
    rw [place]
    exact .tooDeep (by simp [whole])

theorem faultsPinpointedGroup : FaultAt "2*(a + )" (.unexpected "EOF" 7) :=
  faultsPinpointed _ _ (by decide +kernel)

end ArithEquiv.Parse
