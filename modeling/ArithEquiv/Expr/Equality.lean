import ArithEquiv.Expr.Basic

/-! Comparing trees without recursion: a list holds the pairs still to be compared. A `key`
may discard a pair before its children are looked at. Whatever the key, the answer is
equality of the trees (`agreeIff`), so nothing rests on the key being injective. -/
namespace ArithEquiv.Expr

theorem sizesZipLe (xs ys : List Expr) : sizes ((xs.zip ys).map Prod.fst) ≤ sizes xs := by
  induction xs generalizing ys with
  | nil => simp [sizes]
  | cons x xs ih =>
    cases ys with
    | nil => simp [sizes]
    | cons y ys => simpa [sizes] using ih ys

theorem eqIffZip {xs ys : List Expr} (same : xs.length = ys.length) :
    xs = ys ↔ ∀ p ∈ xs.zip ys, p.1 = p.2 := by
  induction xs generalizing ys with
  | nil => simpa using same.symm
  | cons x xs ih =>
    cases ys with
    | nil => simp at same
    | cons y ys => simp [ih (by simpa using same)]

def agree {κ : Type u} [BEq κ] (key : Expr → κ) : List (Expr × Expr) → Bool
  | [] => true
  | (a, b) :: pending =>
    key a == key b &&
      match a, b with
      | .const m, .const n => m == n && agree key pending
      | .var x, .var y => x == y && agree key pending
      | .neg x, .neg y => agree key ((x, y) :: pending)
      | .bin op l r, .bin op' l' r' => op == op' && agree key ((l, l') :: (r, r') :: pending)
      | .flat op x y more, .flat op' x' y' more' =>
          op == op' && more.length == more'.length &&
            agree key ((x, x') :: (y, y') :: (more.zip more' ++ pending))
      | _, _ => false
termination_by pairs => sizes (pairs.map Prod.fst)
decreasing_by
  all_goals simp only [List.map_cons, List.map_append, sizes, sizesAppend, size]
  · omega
  · omega
  · omega
  · omega
  · have := sizesZipLe more more'
    omega

theorem pruned {κ : Type u} [BEq κ] [ReflBEq κ] {key : Expr → κ} {a b : Expr} {rest : Bool}
    {P : Prop} (body : rest = true ↔ a = b ∧ P) :
    (key a == key b && rest) = true ↔ a = b ∧ P := by
  rw [Bool.and_eq_true, body]
  exact ⟨fun h => h.2, fun h => ⟨by simp [h.1], h⟩⟩

theorem agreeIff {κ : Type u} [BEq κ] [ReflBEq κ] (key : Expr → κ)
    (pairs : List (Expr × Expr)) :
    agree key pairs = true ↔ ∀ p ∈ pairs, p.1 = p.2 := by
  fun_induction agree key pairs with
  | case1 => simp
  | case2 a b pending ih =>
    rw [List.forall_mem_cons]
    refine pruned ?_
    split
    case h_5 op x y more op' x' y' more' =>
      by_cases shape : more.length = more'.length
      · simp_all [and_assoc, or_imp, forall_and, eqIffZip shape]
      · have differ : more ≠ more' := fun h => shape (congrArg List.length h)
        simp [shape, differ]
    case h_6 hc hv hn hb hf =>
      simp only [Bool.false_eq_true, false_iff]
      rintro ⟨rfl, -⟩
      cases a
      · exact hc _ _ rfl rfl
      · exact hv _ _ rfl rfl
      · exact hn _ _ rfl rfl
      · exact hb _ _ _ _ _ _ rfl rfl
      · exact hf _ _ _ _ _ _ _ _ rfl rfl
    all_goals simp_all [and_assoc]

def same {κ : Type u} [BEq κ] (key : Expr → κ) (a b : Expr) : Bool := agree key [(a, b)]

theorem sameIff {κ : Type u} [BEq κ] [ReflBEq κ] (key : Expr → κ) (a b : Expr) :
    same key a b = true ↔ a = b := by
  simp [same, agreeIff]

instance : DecidableEq Expr := fun a b =>
  decidable_of_iff (same (fun _ => ()) a b = true) (sameIff _ a b)

end ArithEquiv.Expr
