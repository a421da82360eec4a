/-! A stable merge sort. It gives what `List.mergeSort` gives (`sortEqMergeSort`), whose laws
therefore hold of it, and it can be evaluated on closed lists inside a proof. -/
namespace ArithEquiv.Sorting

variable {α : Type u}

/-- Merges two lists behind what has been merged already, which is given in reverse. -/
def mergeOnto (le : α → α → Bool) (done xs ys : List α) : List α :=
  match xs, ys with
  | [], ys => done.reverseAux ys
  | x :: xs, [] => done.reverseAux (x :: xs)
  | x :: xs, y :: ys =>
    if le x y then mergeOnto le (x :: done) xs (y :: ys)
    else mergeOnto le (y :: done) (x :: xs) ys
termination_by xs.length + ys.length

def sortWithin (le : α → α → Bool) : (bound : Nat) → List α → List α
  | 0, xs => xs
  | _ + 1, [] => []
  | _ + 1, [x] => [x]
  | bound + 1, x :: y :: rest =>
    let half := ((x :: y :: rest).length + 1) / 2
    mergeOnto le [] (sortWithin le bound ((x :: y :: rest).take half))
      (sortWithin le bound ((x :: y :: rest).drop half))

def sort (le : α → α → Bool) (xs : List α) : List α := sortWithin le xs.length xs

theorem mergeOntoEqMerge (le : α → α → Bool) (done xs ys : List α) :
    mergeOnto le done xs ys = done.reverse ++ xs.merge ys le := by
  fun_induction mergeOnto le done xs ys with
  | case1 done ys => simp
  | case2 done x xs => simp
  | case3 done x xs y ys before ih => simp [ih, before]
  | case4 done x xs y ys after ih => simp [ih, after]

theorem sortWithinEqMergeSort (le : α → α → Bool) {bound : Nat} {xs : List α}
    (short : xs.length ≤ bound) : sortWithin le bound xs = xs.mergeSort le := by
  induction bound generalizing xs with
  | zero =>
    have empty : xs = [] := by simpa using short
    simp [empty, sortWithin]
  | succ bound ih =>
    match xs with
    | [] => simp [sortWithin]
    | [x] => simp [sortWithin]
    | x :: y :: rest =>
      have left : ((x :: y :: rest).take ((rest.length + 2 + 1) / 2)).length ≤ bound := by
        simp only [List.length_take, List.length_cons] at *
        omega
      have right : ((x :: y :: rest).drop ((rest.length + 2 + 1) / 2)).length ≤ bound := by
        simp only [List.length_drop, List.length_cons] at *
        omega
      rw [sortWithin, List.mergeSort, mergeOntoEqMerge]
      simp only [List.length_cons, List.reverse_nil, List.nil_append, ih left, ih right,
        List.MergeSort.Internal.splitInTwo_fst, List.MergeSort.Internal.splitInTwo_snd]

theorem sortEqMergeSort (le : α → α → Bool) (xs : List α) : sort le xs = xs.mergeSort le :=
  sortWithinEqMergeSort le (Nat.le_refl _)

end ArithEquiv.Sorting
