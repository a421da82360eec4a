import ArithEquiv.Proofs.Scanning
import Mathlib.Data.List.Chain

/-! Scanning gives the longest matches of seven terminals, one after another, in the text without
its blanks. Nothing but blanks is lost, and every token stands at its first character. -/
namespace ArithEquiv.Token

inductive Terminal where
  | word
  | plus
  | minus
  | star
  | slash
  | opening
  | closing
  deriving DecidableEq, Repr

def delimiters : List Char := ['+', '-', '*', '/', '(', ')']

namespace Terminal

def Matches : Terminal → List Char → Prop
  | .word, text => text ≠ [] ∧ ∀ c ∈ text, c ∉ delimiters
  | .plus, text => text = ['+']
  | .minus, text => text = ['-']
  | .star, text => text = ['*']
  | .slash, text => text = ['/']
  | .opening, text => text = ['(']
  | .closing, text => text = [')']

def kind : Terminal → List Char → TokenKind
  | .word, text => if text.all Char.isDigit then .numeral else .name
  | .opening, _ => .opening
  | .closing, _ => .closing
  | _, _ => .operator

variable {terminal other : Terminal} {text : List Char} {c : Char}

theorem matchesDelimiter (fits : terminal.Matches text) (single : terminal ≠ .word) :
    ∃ c ∈ delimiters, text = [c] := by
  cases terminal with
  | word => exact absurd rfl single
  | plus | minus | star | slash | opening | closing => exact ⟨_, by simp [delimiters], fits⟩

theorem delimiterMatches (delimiter : c ∈ delimiters) : ∃ terminal : Terminal,
    terminal.Matches [c] ∧ terminal ≠ .word := by
  simp only [delimiters, List.mem_cons, List.not_mem_nil, or_false] at delimiter
  rcases delimiter with rfl | rfl | rfl | rfl | rfl | rfl
  · exact ⟨.plus, rfl, nofun⟩
  · exact ⟨.minus, rfl, nofun⟩
  · exact ⟨.star, rfl, nofun⟩
  · exact ⟨.slash, rfl, nofun⟩
  · exact ⟨.opening, rfl, nofun⟩
  · exact ⟨.closing, rfl, nofun⟩

theorem matchesNonempty (fits : terminal.Matches text) : text ≠ [] := by
  by_cases word : terminal = .word
  · subst word
    exact fits.1
  · obtain ⟨c, _, rfl⟩ := matchesDelimiter fits word
    exact List.cons_ne_nil _ _

theorem matchesWord (fits : terminal.Matches (c :: text)) (inner : c ∉ delimiters) :
    terminal = .word := by
  refine Classical.byContradiction fun single => ?_
  obtain ⟨d, delimiter, same⟩ := matchesDelimiter fits single
  cases same
  exact inner delimiter

theorem wordKind (word : terminal.kind text = .numeral ∨ terminal.kind text = .name) :
    terminal = .word := by
  cases terminal with
  | word => rfl
  | plus | minus | star | slash | opening | closing => simp [kind] at word

theorem matchesUnique (fits : terminal.Matches text) (fits' : other.Matches text) :
    terminal = other := by
  cases terminal <;> cases other <;> simp_all [Matches, delimiters]

end Terminal

theorem punctuationNone {c : Char} : punctuation? c = none ↔ c ∉ delimiters := by
  unfold punctuation?
  simp only [delimiters, List.mem_cons, List.not_mem_nil, or_false, not_or]
  repeat' split
  all_goals grind

inductive Matched : List Char → List (Terminal × List Char) → Prop where
  | done : Matched [] []
  | next {terminal : Terminal} {text rest : List Char} {pieces : List (Terminal × List Char)}
      (fits : terminal.Matches text)
      (longest : ∀ (other : Terminal) (longer : List Char), other.Matches longer →
        longer <+: text ++ rest → longer.length ≤ text.length)
      (more : Matched rest pieces) : Matched (text ++ rest) ((terminal, text) :: pieces)

def compact (source : String) : List Char := source.toList.filter (!Text.isBlank ·)

def offsets (source : String) : List Nat := (marks source).map Prod.snd

def ofPieces (offsets : List Nat) : (start : Nat) → List (Terminal × List Char) →
    Option (List Token)
  | _, [] => some []
  | start, (terminal, text) :: rest => do
      let position ← offsets[start]?
      let more ← ofPieces offsets (start + text.length) rest
      some (⟨terminal.kind text, String.ofList text, position⟩ :: more)

theorem Matched.unique {text : List Char} {pieces others : List (Terminal × List Char)}
    (matched : Matched text pieces) (matched' : Matched text others) : pieces = others := by
  induction matched generalizing others with
  | done =>
    generalize whole : [] = empty at matched'
    cases matched' with
    | done => rfl
    | next fits _ _ =>
      have none := (List.append_eq_nil_iff.1 whole.symm).1
      exact absurd none (Terminal.matchesNonempty fits)
  | @next terminal text rest pieces fits longest _ ih =>
    generalize whole : text ++ rest = all at matched'
    cases matched' with
    | done =>
      exact absurd (List.append_eq_nil_iff.1 whole).1 (Terminal.matchesNonempty fits)
    | @next terminal' text' rest' pieces' fits' longest' more' =>
      have shorter := longest _ _ fits' (whole ▸ List.prefix_append _ _)
      have longer := longest' _ _ fits (whole ▸ List.prefix_append _ _)
      obtain ⟨rfl, rfl⟩ := List.append_inj whole (Nat.le_antisymm longer shorter)
      rw [Terminal.matchesUnique fits fits', ih more']

inductive Lexed : List Mark → List Lexeme → Prop where
  | done : Lexed [] []
  | next {mark : Mark} {run rest : List Mark} {ls : List Lexeme} (terminal : Terminal)
      (fits : terminal.Matches (mark.1 :: run.map Prod.fst))
      (ends : terminal = .word → ∀ after ∈ rest.head?, after.1 ∈ delimiters)
      (more : Lexed rest ls) :
      Lexed (mark :: (run ++ rest)) (⟨mark.2, mark.1, run.map Prod.fst⟩ :: ls)

theorem longestMatch {terminal other : Terminal} {text rest longer : List Char}
    (fits : terminal.Matches text)
    (ends : terminal = .word → ∀ c ∈ rest.head?, c ∈ delimiters) (fits' : other.Matches longer)
    (within : longer <+: text ++ rest) : longer.length ≤ text.length := by
  by_cases word : other = .word
  · subst word
    refine Classical.byContradiction fun beyond => ?_
    obtain ⟨extra, rfl⟩ := List.prefix_of_prefix_length_le (List.prefix_append text rest) within
      (by omega)
    by_cases word' : terminal = .word
    · cases extra with
      | nil => simp at beyond
      | cons c extra =>
        obtain ⟨behind, same⟩ := (List.prefix_append_right_inj text).1 within
        subst same
        exact fits'.2 c (by simp) (ends word' c (by simp))
    · obtain ⟨c, delimiter, rfl⟩ := Terminal.matchesDelimiter fits word'
      exact fits'.2 c (by simp) delimiter
  · obtain ⟨c, _, rfl⟩ := Terminal.matchesDelimiter fits' word
    exact List.length_pos_iff.2 (Terminal.matchesNonempty fits)

theorem lexemeKind {l : Lexeme} {terminal : Terminal} (fits : terminal.Matches l.chars) :
    l.kind = terminal.kind l.chars := by
  obtain ⟨position, first, more⟩ := l
  cases terminal with
  | word =>
    have inner : punctuation? first = none :=
      punctuationNone.2 (fits.2 first (by simp [Lexeme.chars]))
    simp only [Lexeme.kind, inner, Terminal.kind]
  | plus | minus | star | slash | opening | closing =>
    cases fits
    rfl

section Lexed

variable {mark : Mark} {ms : List Mark} {ls : List Lexeme}

theorem Lexed.single (terminal : Terminal) (fits : terminal.Matches [mark.1])
    (ends : terminal = .word → ∀ after ∈ ms.head?, after.1 ∈ delimiters) (lexed : Lexed ms ls) :
    Lexed (mark :: ms) (⟨mark.2, mark.1, []⟩ :: ls) :=
  @Lexed.next mark [] ms ls terminal fits ends lexed

theorem Lexed.attach (mark : Mark) (lexed : Lexed ms ls) :
    Lexed (mark :: ms) (Lexeme.attach mark ls) := by
  by_cases delimiter : mark.1 ∈ delimiters
  · obtain ⟨terminal, fits, single⟩ := Terminal.delimiterMatches delimiter
    have alone : Lexeme.attach mark ls = ⟨mark.2, mark.1, []⟩ :: ls := by
      cases ls with
      | nil => rfl
      | cons next rest =>
        have some : (punctuation? mark.1).isSome := by
          rw [Option.isSome_iff_ne_none]
          exact fun none => punctuationNone.1 none delimiter
        simp [Lexeme.attach, some]
    rw [alone]
    exact lexed.single terminal fits fun word => absurd word single
  · have word : Terminal.word.Matches [mark.1] := ⟨List.cons_ne_nil _ _, by simpa using delimiter⟩
    cases lexed with
    | done => exact Lexed.done.single .word word (by simp)
    | @next next run rest ls terminal fits ends more =>
      by_cases apart : next.1 ∈ delimiters
      · have some : (punctuation? next.1).isSome := by
          rw [Option.isSome_iff_ne_none]
          exact fun none => punctuationNone.1 none apart
        have parted : Lexeme.attach mark (⟨next.2, next.1, run.map Prod.fst⟩ :: ls) =
            ⟨mark.2, mark.1, []⟩ :: ⟨next.2, next.1, run.map Prod.fst⟩ :: ls := by
          simp [Lexeme.attach, some]
        rw [parted]
        exact (Lexed.next terminal fits ends more).single .word word (by simpa using apart)
      · obtain rfl := Terminal.matchesWord fits apart
        have joined : Lexeme.attach mark (⟨next.2, next.1, run.map Prod.fst⟩ :: ls) =
            ⟨mark.2, mark.1, (next :: run).map Prod.fst⟩ :: ls := by
          simp [Lexeme.attach, Lexeme.chars, punctuationNone.2 delimiter, punctuationNone.2 apart]
        rw [joined]
        refine @Lexed.next mark (next :: run) rest ls .word ⟨List.cons_ne_nil _ _, ?_⟩ ends more
        simpa using ⟨delimiter, by simpa using fits.2⟩

theorem lexedMarks (ms : List Mark) : Lexed ms (ms.foldr Lexeme.attach []) := by
  induction ms with
  | nil => exact .done
  | cons mark rest ih => exact ih.attach mark

theorem Lexed.matched (lexed : Lexed ms ls) :
    ∃ pieces, Matched (ms.map Prod.fst) pieces ∧ ∀ before : List Mark,
      ofPieces ((before ++ ms).map Prod.snd) before.length pieces =
        some (ls.map Lexeme.token) := by
  induction lexed with
  | done => exact ⟨[], .done, fun _ => rfl⟩
  | @next mark run rest ls terminal fits ends _ ih =>
    obtain ⟨pieces, matched, tokens⟩ := ih
    have text : (mark :: (run ++ rest)).map Prod.fst =
        (mark.1 :: run.map Prod.fst) ++ rest.map Prod.fst := by simp
    refine ⟨(terminal, mark.1 :: run.map Prod.fst) :: pieces, ?_, fun before => ?_⟩
    · rw [text]
      refine .next fits (fun other longer fits' within => ?_) matched
      refine longestMatch fits (fun word c first => ?_) fits' within
      rw [List.head?_map, Option.mem_def, Option.map_eq_some_iff] at first
      obtain ⟨after, first, rfl⟩ := first
      exact ends word after first
    · have here : ((before ++ mark :: (run ++ rest)).map Prod.snd)[before.length]? =
          some mark.2 := by simp
      have behind := tokens (before ++ mark :: run)
      have same : before ++ mark :: run ++ rest = before ++ mark :: (run ++ rest) := by simp
      have length : (before ++ mark :: run).length =
          before.length + (mark.1 :: run.map Prod.fst).length := by simp
      rw [same, length] at behind
      rw [ofPieces, here, behind]
      simp [Lexeme.token, lexemeKind (l := ⟨mark.2, mark.1, run.map Prod.fst⟩) fits, Lexeme.chars]

end Lexed

inductive Spelled : TokenKind → List Char → Prop where
  | operator (c : Char) (known : c ∈ ['+', '-', '*', '/']) : Spelled .operator [c]
  | opening : Spelled .opening ['(']
  | closing : Spelled .closing [')']
  | numeral {text : List Char} (nonempty : text ≠ []) (digits : ∀ c ∈ text, c.isDigit = true) :
      Spelled .numeral text
  | name {text : List Char} (nonempty : text ≠ []) (plain : ∀ c ∈ text, c ∉ delimiters)
      (some : ∃ c ∈ text, c.isDigit = false) : Spelled .name text

def endOf (source : String) : Token := ⟨.ending, "EOF", source.length⟩

def IsWord (t : Token) : Prop := t.kind = .numeral ∨ t.kind = .name

theorem matchesSpelled {terminal : Terminal} {text : List Char} (fits : terminal.Matches text) :
    Spelled (terminal.kind text) text := by
  cases terminal with
  | word =>
    rw [Terminal.kind]
    split
    · rename_i digits
      exact .numeral fits.1 (List.all_eq_true.1 digits)
    · rename_i other
      refine .name fits.1 fits.2 ?_
      simpa using other
  | plus | minus | star | slash =>
    cases fits
    exact .operator _ (by simp)
  | opening =>
    cases fits
    exact .opening
  | closing =>
    cases fits
    exact .closing

def Covers (source : String) (t next : Token) : Prop :=
  ∃ p q : Nat, t.position = p ∧ next.position = q ∧ p < q ∧
    source.toList[p]? = t.text.toList.head? ∧
    ((source.toList.drop p).take (q - p)).filter (!Text.isBlank ·) = t.text.toList

section Tokens

variable {ms : List Mark} {ls : List Lexeme}

theorem Lexed.spelled (lexed : Lexed ms ls) :
    ∀ t ∈ ls.map Lexeme.token, Spelled t.kind t.text.toList := by
  induction lexed with
  | done => simp
  | @next mark run rest ls terminal fits ends _ ih =>
    intro t mem
    rcases List.mem_cons.1 mem with rfl | mem
    · have kind := lexemeKind (l := ⟨mark.2, mark.1, run.map Prod.fst⟩) fits
      simpa [Lexeme.token, Lexeme.chars, kind] using matchesSpelled fits
    · exact ih t mem

theorem wordToken {l : Lexeme} {terminal : Terminal} (fits : terminal.Matches l.chars)
    (word : l.token.IsWord) : terminal = .word := by
  have kinds : l.kind = .numeral ∨ l.kind = .name := word
  rw [lexemeKind fits] at kinds
  exact Terminal.wordKind kinds

theorem Lexed.apart (lexed : Lexed ms ls) :
    (ls.map Lexeme.token).IsChain fun t next => ¬(t.IsWord ∧ next.IsWord) := by
  induction lexed with
  | done => exact .nil
  | @next mark run rest ls terminal fits ends more ih =>
    rw [List.map_cons, List.isChain_cons]
    refine ⟨fun next first words => ?_, ih⟩
    cases more with
    | done => simp at first
    | @next mark' run' rest' ls' terminal' fits' ends' more' =>
      obtain rfl : Lexeme.token _ = next := by simpa using first
      have word := wordToken (l := ⟨mark.2, mark.1, run.map Prod.fst⟩) fits words.1
      obtain rfl := wordToken (l := ⟨mark'.2, mark'.1, run'.map Prod.fst⟩) fits' words.2
      exact fits'.2 mark'.1 (by simp) (ends word mark' (by simp))

def unblank (m : Mark) : Bool := !Text.isBlank m.1

theorem filterMarks (text : List Char) (k : Nat) :
    ((text.zipIdx k).filter unblank).map Prod.fst = text.filter (!Text.isBlank ·) := by
  have pulled : (unblank : Mark → Bool) = (!Text.isBlank ·) ∘ Prod.fst := rfl
  rw [pulled, ← List.filter_map, List.zipIdx_map_fst]

theorem blankMarks {text : List Char} {k : Nat} (none : (text.zipIdx k).filter unblank = []) :
    ∀ c ∈ text, Text.isBlank c = true := by
  have filtered := filterMarks text k
  rw [none, List.map_nil, eq_comm, List.filter_eq_nil_iff] at filtered
  simpa using filtered

theorem cutMarks {text : List Char} {k : Nat} {mark : Mark} {run rest : List Mark}
    (cut : (text.zipIdx k).filter unblank = mark :: (run ++ rest)) :
    ∃ blanks inner after, text = blanks ++ mark.1 :: (inner ++ after) ∧
      (∀ c ∈ blanks, Text.isBlank c = true) ∧ mark.2 = k + blanks.length ∧
      (mark.1 :: inner).filter (!Text.isBlank ·) = mark.1 :: run.map Prod.fst ∧
      (after.zipIdx (mark.2 + 1 + inner.length)).filter unblank = rest := by
  obtain ⟨front, back, whole, none, some, behind⟩ := List.filter_eq_cons_iff.1 cut
  obtain ⟨blanks, more, rfl, rfl, tail⟩ := List.zipIdx_eq_append_iff.1 whole
  obtain ⟨c, more, rfl, rfl, rfl⟩ := List.zipIdx_eq_cons_iff.1 tail.symm
  obtain ⟨inner, after, split, rfl, rfl⟩ := List.filter_eq_append_iff.1 behind
  obtain ⟨inner, after, rfl, rfl, rfl⟩ := List.zipIdx_eq_append_iff.1 split
  refine ⟨blanks, inner, after, rfl, ?_, rfl, ?_, rfl⟩
  · exact blankMarks (List.filter_eq_nil_iff.2 none)
  · rw [filterMarks, List.filter_cons_of_pos (by simpa [unblank] using some)]

theorem Lexed.covers {source : String} (lexed : Lexed ms ls) (before : List Char)
    {text : List Char} (whole : source.toList = before ++ text)
    (cut : (text.zipIdx before.length).filter unblank = ms) :
    (∃ blanks after, text = blanks ++ after ∧ (∀ c ∈ blanks, Text.isBlank c = true) ∧
      ∀ t ∈ (ls.map Lexeme.token ++ [endOf source]).head?,
        t.position = ((before.length + blanks.length : Nat) : Int)) ∧
    (ls.map Lexeme.token ++ [endOf source]).IsChain (Covers source) := by
  induction lexed generalizing before text with
  | done =>
    refine ⟨⟨text, [], by simp, blankMarks cut, ?_⟩, .singleton _⟩
    simp [endOf, ← String.length_toList, whole]
  | @next mark run rest ls terminal fits ends more ih =>
    obtain ⟨blanks, inner, after, rfl, blank, position, chars, cut⟩ := cutMarks cut
    have length : mark.2 + 1 + inner.length = (before ++ blanks ++ mark.1 :: inner).length := by
      simp [position]
      omega
    rw [length] at cut
    obtain ⟨⟨blanks', after', rfl, blank', next⟩, chain⟩ :=
      ih (before ++ blanks ++ mark.1 :: inner) (by simp [whole]) cut
    refine ⟨⟨blanks, _, rfl, blank, ?_⟩, ?_⟩
    · simp [Lexeme.token, position]
    rw [List.map_cons, List.cons_append, List.isChain_cons]
    refine ⟨fun t first => ⟨mark.2, _, rfl, next t first, ?_, ?_, ?_⟩, chain⟩
    · omega
    · have front : before.length + blanks.length = (before ++ blanks).length := by simp
      rw [whole, position, front]
      simp [Lexeme.token, Lexeme.chars]
    · have parts : source.toList = (before ++ blanks) ++
          ((mark.1 :: inner ++ blanks') ++ after') := by simp [whole]
      have offset : mark.2 = (before ++ blanks).length := by simp [position]
      have size : (before ++ blanks ++ mark.1 :: inner).length + blanks'.length - mark.2 =
          (mark.1 :: inner ++ blanks').length := by
        simp [position]
        omega
      rw [size, parts, offset, List.drop_left, List.take_left, List.filter_append, chars]
      simpa [Lexeme.token, Lexeme.chars] using blank'

end Tokens

theorem compactMarks (source : String) : (marks source).map Prod.fst = compact source :=
  filterMarks source.toList 0

theorem matchedTokens (source : String) : ∃ pieces, Matched (compact source) pieces ∧
    ofPieces (offsets source) 0 pieces = some (scan source) := by
  obtain ⟨pieces, matched, tokens⟩ := (lexedMarks (marks source)).matched
  exact ⟨pieces, compactMarks source ▸ matched, tokens []⟩

def look (t : Token) : TokenKind × String := (t.kind, t.text)

theorem ofPiecesLook {offsets : List Nat} {start : Nat} {pieces : List (Terminal × List Char)}
    {tokens : List Token} (given : ofPieces offsets start pieces = some tokens) :
    tokens.map look = pieces.map fun piece => (piece.1.kind piece.2, String.ofList piece.2) := by
  induction pieces generalizing start tokens with
  | nil =>
    cases given
    rfl
  | cons piece rest ih =>
    obtain ⟨terminal, text⟩ := piece
    simp only [ofPieces, Option.bind_eq_bind, Option.bind_eq_some_iff] at given
    obtain ⟨position, _, more, behind, same⟩ := given
    cases same
    simp [look, ih behind]

theorem scanLook {source other : String} (same : compact source = compact other) :
    (scan source).map look = (scan other).map look := by
  obtain ⟨pieces, matched, tokens⟩ := matchedTokens source
  obtain ⟨pieces', matched', tokens'⟩ := matchedTokens other
  rw [ofPiecesLook tokens, ofPiecesLook tokens', matched.unique (same ▸ matched')]

def written (tokens : List Token) : List Char := tokens.flatMap (·.text.toList)

def Lexical (tokens : List Token) : Prop := ∀ t ∈ tokens, Spelled t.kind t.text.toList

section Written

variable {t : Token} {tokens rest : List Token}

theorem writtenAppend (tokens rest : List Token) :
    written (tokens ++ rest) = written tokens ++ written rest :=
  List.flatMap_append

theorem Lexical.sub (lexical : Lexical tokens) (sub : rest ⊆ tokens) : Lexical rest :=
  fun t mem => lexical t (sub mem)

theorem Lexical.tail (lexical : Lexical (t :: rest)) : Lexical rest :=
  fun token mem => lexical token (List.mem_cons_of_mem _ mem)

theorem Lexical.head (lexical : Lexical (t :: rest)) : Spelled t.kind t.text.toList :=
  lexical t (by simp)

end Written

section Sources

variable (source : String)

theorem scannedWhole : written (scan source) = compact source := by
  rw [← compactMarks, ← lexemesChars, written, scan, List.flatMap_map]
  simp [Lexeme.token]

theorem scannedLexical : Lexical (scan source) :=
  (lexedMarks (marks source)).spelled

theorem scannedCovers : (scan source ++ [endOf source]).IsChain (Covers source) :=
  ((lexedMarks (marks source)).covers [] rfl rfl).2

variable {source}

theorem coversRest {t : Token} {after : List Token}
    (chain : (t :: after ++ [endOf source]).IsChain (Covers source)) :
    ∃ p : Nat, t.position = p ∧ p < source.length ∧ source.toList[p]? = t.text.toList.head? ∧
      (source.toList.drop p).filter (!Text.isBlank ·) = written (t :: after) := by
  induction after generalizing t with
  | nil =>
    obtain ⟨p, q, position, ending, before, first, chars⟩ := (List.isChain_cons_cons.1 chain).1
    obtain rfl : source.length = q := Int.ofNat.inj ending
    refine ⟨p, position, before, first, ?_⟩
    rw [List.take_of_length_le (by simp [String.length_toList])] at chars
    simpa [written] using chars
  | cons next after ih =>
    obtain ⟨covers, rest⟩ := List.isChain_cons_cons.1 chain
    obtain ⟨p, q, position, position', before, first, chars⟩ := covers
    obtain ⟨q', position'', inside, _, behind⟩ := ih rest
    obtain rfl : q = q' := by omega
    refine ⟨p, position, by omega, first, ?_⟩
    have parts : source.toList.drop p = (source.toList.drop p).take (q - p) ++
        source.toList.drop q := by
      have back : source.toList.drop q = (source.toList.drop p).drop (q - p) := by
        rw [List.drop_drop, Nat.add_sub_cancel' (Nat.le_of_lt before)]
      rw [back, List.take_append_drop]
    rw [parts, List.filter_append, chars, behind]
    rfl

theorem scannedAt {before after : List Token} {t : Token}
    (split : scan source = before ++ t :: after) :
    ∃ front back, source.toList = front ++ back ∧ t.position = front.length ∧
      front.filter (!Text.isBlank ·) = written before ∧
      back.filter (!Text.isBlank ·) = written (t :: after) ∧
      back.head? = t.text.toList.head? := by
  have chain := scannedCovers source
  rw [split, List.append_assoc] at chain
  obtain ⟨p, position, inside, first, behind⟩ := coversRest (List.isChain_append.1 chain).2.1
  refine ⟨source.toList.take p, source.toList.drop p, (List.take_append_drop p _).symm, ?_, ?_,
    behind, ?_⟩
  · rw [position, List.length_take, String.length_toList, Nat.min_eq_left (Nat.le_of_lt inside)]
  · have whole : compact source = written before ++ written (t :: after) := by
      rw [← scannedWhole, split, writtenAppend]
    rw [compact, ← List.take_append_drop p source.toList, List.filter_append, behind] at whole
    exact List.append_cancel_right whole
  · rw [List.head?_drop, first]

end Sources

theorem scanFaithful (source : String) :
    (∃ pieces, Matched (compact source) pieces) ∧
    ∀ pieces, Matched (compact source) pieces → ∃ words,
      ofPieces (offsets source) 0 pieces = some words ∧
      (Cursor.ofSource source).tokens = words ++ [endOf source] ∧
      words.flatMap (·.text.toList) = source.toList.filter (!Text.isBlank ·) ∧
      (∀ t ∈ words, Spelled t.kind t.text.toList) ∧
      (words.IsChain fun t next => ¬(t.IsWord ∧ next.IsWord)) ∧
      (words ++ [endOf source]).IsChain (Covers source) ∧
      ∀ other : String, other.toList.filter (!Text.isBlank ·) =
          source.toList.filter (!Text.isBlank ·) →
        (Cursor.ofSource other).tokens.map look = (Cursor.ofSource source).tokens.map look := by
  have tokens (source : String) :
      (Cursor.ofSource source).tokens = scan source ++ [endOf source] := by
    rw [Cursor.ofSourceStart]
    rfl
  obtain ⟨known, matched, given⟩ := matchedTokens source
  refine ⟨⟨known, matched⟩, fun pieces matched' => ⟨scan source, ?_, tokens source,
    scannedWhole source, scannedLexical source, (lexedMarks (marks source)).apart,
    scannedCovers source, fun other same => ?_⟩⟩
  · rw [← matched.unique matched', given]
  · have texts : compact other = compact source := same
    rw [tokens, tokens, List.map_append, List.map_append, scanLook texts]
    rfl

theorem scanFaithfulBlanks :
    (Cursor.ofSource " x y+\t12").tokens.map look = (Cursor.ofSource "xy+12").tokens.map look := by
  obtain ⟨⟨pieces, matched⟩, split⟩ := scanFaithful "xy+12"
  obtain ⟨_, _, _, _, _, _, _, blanks⟩ := split pieces matched
  exact blanks " x y+\t12" (by decide +kernel)

end ArithEquiv.Token
