import ArithEquiv.Proofs.Lexemes

/-! Partners of parentheses in a text, whatever else stands in it. A count of the open ones finds
them, and the search for the end of a group among tokens finds the same ones. -/
namespace ArithEquiv

inductive Balanced : List Char → Prop where
  | nil : Balanced []
  | other {c : Char} {rest : List Char} (plain : c ≠ '(' ∧ c ≠ ')') (more : Balanced rest) :
      Balanced (c :: rest)
  | pair {inside rest : List Char} (within : Balanced inside) (more : Balanced rest) :
      Balanced ('(' :: (inside ++ ')' :: rest))

def Partnered (text : List Char) (p : Nat) : Prop :=
  ∃ before inside after, text = before ++ '(' :: (inside ++ ')' :: after) ∧ Balanced inside ∧
    (p = before.length ∨ p = (before ++ '(' :: inside).length)

def climb : (opened : Nat) → List Char → Option Nat
  | opened, [] => some opened
  | opened, c :: rest =>
    if c = '(' then climb (opened + 1) rest
    else if c = ')' then
      match opened with
      | 0 => none
      | opened + 1 => climb opened rest
    else climb opened rest

section Climb

variable {opened : Nat} {c : Char} {rest text : List Char}

@[simp]
theorem climbOpening : climb opened ('(' :: rest) = climb (opened + 1) rest := rfl

@[simp]
theorem climbClosing : climb (opened + 1) (')' :: rest) = climb opened rest := rfl

@[simp]
theorem climbStray : climb 0 (')' :: rest) = none := rfl

theorem climbOther (plain : c ≠ '(' ∧ c ≠ ')') : climb opened (c :: rest) = climb opened rest := by
  simp [climb, plain]

theorem climbAppend (text rest : List Char) :
    climb opened (text ++ rest) = (climb opened text).bind (climb · rest) := by
  fun_induction climb opened text with
  | case1 => rfl
  | case2 _ _ ih => simpa using ih
  | case3 => rfl
  | case4 _ _ _ ih => simpa using ih
  | case5 _ _ _ opens closes ih => rw [List.cons_append, climbOther ⟨opens, closes⟩, ih]

theorem climbMore {after : Nat} (climbed : climb opened text = some after) (extra : Nat) :
    climb (opened + extra) text = some (after + extra) := by
  fun_induction climb opened text with
  | case1 =>
    cases climbed
    rfl
  | case2 _ _ ih =>
    rw [climbOpening, Nat.add_right_comm]
    exact ih climbed
  | case3 => cases climbed
  | case4 _ _ _ ih =>
    rw [Nat.succ_add, climbClosing]
    exact ih climbed
  | case5 _ _ _ opens closes ih =>
    rw [climbOther ⟨opens, closes⟩]
    exact ih climbed

theorem climbCompact (text : List Char) :
    climb opened (text.filter (!Text.isBlank ·)) = climb opened text := by
  have kept {c : Char} (rest : List Char) (paren : c = '(' ∨ c = ')') :
      (c :: rest).filter (!Text.isBlank ·) = c :: rest.filter (!Text.isBlank ·) := by
    refine List.filter_cons_of_pos ?_
    rcases paren with rfl | rfl <;> decide
  fun_induction climb opened text with
  | case1 => rfl
  | case2 _ _ ih => rw [kept _ (.inl rfl), climbOpening, ih]
  | case3 => rw [kept _ (.inr rfl), climbStray]
  | case4 _ _ _ ih => rw [kept _ (.inr rfl), climbClosing, ih]
  | case5 _ c _ opens closes ih =>
    rw [List.filter_cons]
    split
    · rw [climbOther ⟨opens, closes⟩, ih]
    · exact ih

theorem Balanced.climbs (balanced : Balanced text) (opened : Nat) (rest : List Char) :
    climb opened (text ++ rest) = climb opened rest := by
  induction balanced generalizing opened rest with
  | nil => rfl
  | other plain _ ih => rw [List.cons_append, climbOther plain, ih]
  | pair _ _ ihInside ihRest =>
    rw [List.cons_append, climbOpening, List.append_assoc, ihInside, List.cons_append, climbClosing,
      ihRest]

theorem climbDown (below above : Nat) {after : Nat}
    (climbed : climb (below + above + 1) text = some after) (down : after ≤ below) :
    ∃ inside rest, text = inside ++ ')' :: rest ∧ climb above inside = some 0 ∧
      climb below rest = some after := by
  induction text generalizing above with
  | nil =>
    cases climbed
    omega
  | cons c text ih =>
    by_cases opens : c = '('
    · subst opens
      obtain ⟨inside, rest, rfl, closed, behind⟩ := ih (above + 1) climbed
      exact ⟨'(' :: inside, rest, rfl, closed, behind⟩
    by_cases closes : c = ')'
    · subst closes
      rw [climbClosing] at climbed
      cases above with
      | zero => exact ⟨[], text, rfl, rfl, climbed⟩
      | succ above =>
        obtain ⟨inside, rest, rfl, closed, behind⟩ := ih above climbed
        exact ⟨')' :: inside, rest, rfl, closed, behind⟩
    rw [climbOther ⟨opens, closes⟩] at climbed
    obtain ⟨inside, rest, rfl, closed, behind⟩ := ih above climbed
    exact ⟨c :: inside, rest, rfl, by rwa [climbOther ⟨opens, closes⟩], behind⟩

theorem balancedOfClimb {text : List Char} (climbed : climb 0 text = some 0) : Balanced text := by
  match text with
  | [] => exact .nil
  | c :: text =>
    by_cases opens : c = '('
    · subst opens
      obtain ⟨inside, rest, same, closed, behind⟩ := climbDown 0 0 climbed (Nat.le_refl 0)
      have lengths : text.length = inside.length + 1 + rest.length := by
        simp [same]
        omega
      rw [same]
      exact .pair (balancedOfClimb closed) (balancedOfClimb behind)
    by_cases closes : c = ')'
    · subst closes
      cases climbed
    rw [climbOther ⟨opens, closes⟩] at climbed
    exact .other ⟨opens, closes⟩ (balancedOfClimb climbed)
termination_by text.length
decreasing_by
  all_goals
    rw [List.length_cons]
    omega

theorem closesAlone {front back : List Char} (level : climb 0 front = some 0) :
    ¬Partnered (front ++ ')' :: back) front.length := by
  rintro ⟨before, inside, after, whole, balanced, same | same⟩
  · obtain ⟨-, behind⟩ := List.append_inj whole same
    cases behind
  · have parts : front ++ ')' :: back = before ++ '(' :: inside ++ ')' :: after := by simp [whole]
    obtain ⟨rfl, -⟩ := List.append_inj parts same
    rw [climbAppend] at level
    obtain ⟨n, _, level⟩ := Option.bind_eq_some_iff.1 level
    have closed := balanced.climbs (n + 1) []
    rw [List.append_nil] at closed
    rw [climbOpening, closed] at level
    cases level

theorem opensAlone {front back : List Char} (lasts : climb 0 back ≠ none) :
    ¬Partnered (front ++ '(' :: back) front.length := by
  rintro ⟨before, inside, after, whole, balanced, same | same⟩
  · obtain ⟨-, behind⟩ := List.append_inj whole same
    obtain rfl := (List.cons.inj behind).2
    rw [balanced.climbs, climbStray] at lasts
    exact lasts rfl
  · have parts : front ++ '(' :: back = before ++ '(' :: inside ++ ')' :: after := by simp [whole]
    obtain ⟨-, behind⟩ := List.append_inj parts same
    cases behind

end Climb

section Tokens

open Token

variable {opened : Nat} {t : Token} {tokens rest : List Token}

theorem writtenOpening (spelled : Spelled t.kind t.text.toList) (kind : t.kind = .opening) :
    written (t :: rest) = '(' :: written rest := by
  rw [kind] at spelled
  generalize text : t.text.toList = chars at spelled
  cases spelled
  simp [written, text]

theorem writtenClosing (spelled : Spelled t.kind t.text.toList) (kind : t.kind = .closing) :
    written (t :: rest) = ')' :: written rest := by
  rw [kind] at spelled
  generalize text : t.text.toList = chars at spelled
  cases spelled
  simp [written, text]

theorem spelledPlain {kind : TokenKind} {text : List Char} (spelled : Spelled kind text)
    (inner : kind ≠ .opening ∧ kind ≠ .closing) : ∀ c ∈ text, c ≠ '(' ∧ c ≠ ')' := by
  intro c mem
  cases spelled with
  | operator d known =>
    obtain rfl := List.mem_singleton.1 mem
    constructor <;> rintro rfl <;> simp at known
  | opening => exact absurd rfl inner.1
  | closing => exact absurd rfl inner.2
  | numeral _ digits =>
    constructor <;> rintro rfl <;> cases digits _ mem
  | name _ plain _ =>
    constructor <;> rintro rfl <;> exact plain _ mem (by simp [delimiters])

theorem climbInner (spelled : Spelled t.kind t.text.toList)
    (inner : t.kind ≠ .opening ∧ t.kind ≠ .closing) :
    climb opened (written (t :: rest)) = climb opened (written rest) := by
  have passed {text : List Char} (plain : ∀ c ∈ text, c ≠ '(' ∧ c ≠ ')') :
      climb opened (text ++ written rest) = climb opened (written rest) := by
    induction text with
    | nil => rfl
    | cons c text ih =>
      rw [List.cons_append, climbOther (plain c (by simp)), ih fun c mem => plain c (by simp [mem])]
  exact passed (spelledPlain spelled inner)

theorem noEndingSpelled {text : List Char} (spelled : Spelled t.kind text) : t.kind ≠ .ending := by
  intro kind
  rw [kind] at spelled
  cases spelled

theorem innerKind {kind : TokenKind} {depth : Nat} (opens : ¬kind = .opening)
    (last : kind = .closing → ¬depth = 0) (closes : ∀ less, kind = .closing → ¬depth = less + 1) :
    kind ≠ .opening ∧ kind ≠ .closing := by
  refine ⟨opens, fun same => ?_⟩
  cases depth with
  | zero => exact last same rfl
  | succ less => exact closes less same rfl

theorem splitClimb {depth : Nat} {before : List Token} {group : Group} (lexical : Lexical tokens)
    (found : Group.split? depth before tokens = some group) :
    ∃ passed, tokens = passed ++ group.closing :: group.after ∧
      group.inside = before.reverse ++ passed ∧ climb depth (written passed) = some 0 := by
  fun_induction Group.split? depth before tokens with
  | case1 => cases found
  | case2 => cases found
  | case3 =>
    cases found
    exact ⟨[], rfl, by simp, rfl⟩
  | case4 before t rest depth kind ih =>
    obtain ⟨passed, rfl, inside, climbed⟩ := ih lexical.tail found
    refine ⟨t :: passed, rfl, by simp [inside], ?_⟩
    rwa [writtenClosing lexical.head kind, climbClosing]
  | case5 before t rest depth kind ih =>
    obtain ⟨passed, rfl, inside, climbed⟩ := ih lexical.tail found
    refine ⟨t :: passed, rfl, by simp [inside], ?_⟩
    rwa [writtenOpening lexical.head kind, climbOpening]
  | case6 before t rest depth _ last closes opens ih =>
    have inner := innerKind opens last closes
    obtain ⟨passed, rfl, inside, climbed⟩ := ih lexical.tail found
    refine ⟨t :: passed, rfl, by simp [inside], ?_⟩
    rwa [climbInner lexical.head inner]

theorem splitLost {depth : Nat} {before : List Token} (lexical : Lexical tokens)
    (lost : Group.split? depth before tokens = none) :
    climb depth (written tokens) ≠ none := by
  fun_induction Group.split? depth before tokens with
  | case1 => exact Option.some_ne_none _
  | case2 before t rest depth kind => exact absurd kind (noEndingSpelled lexical.head)
  | case3 => cases lost
  | case4 before t rest depth kind ih =>
    rw [writtenClosing lexical.head kind, climbClosing]
    exact ih lexical.tail lost
  | case5 before t rest depth kind ih =>
    rw [writtenOpening lexical.head kind, climbOpening]
    exact ih lexical.tail lost
  | case6 before t rest depth _ last closes opens ih =>
    have inner := innerKind opens last closes
    rw [climbInner lexical.head inner]
    exact ih lexical.tail lost

end Tokens

end ArithEquiv
