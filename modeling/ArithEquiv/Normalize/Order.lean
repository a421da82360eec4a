import ArithEquiv.Normalize.FixedPoint
import ArithEquiv.Sorting

/-! The operands of sums and products in the order of their digests. Only here do `a + b` and
`b + a` become the same tree. Equal digests keep their order. -/
namespace ArithEquiv.Normalize

def orderNode (op : AssocOp) : Node (Expr × Digest) → Node (Expr × Digest)
  | .flat inner args =>
    if inner = op then .flat inner (Sorting.sort (fun a b => a.2.le b.2) args)
    else .flat inner args
  | .bin inner left right =>
    if inner = op.bin ∧ ¬ left.2.le right.2 then .bin inner right left
    else .bin inner left right
  | other => other

def orderAndHash (hash : NodeHash) (op : AssocOp) (n : Node (Expr × Digest)) : Expr × Digest :=
  let ordered := orderNode op n
  ((ordered.map Prod.fst).build, hash (ordered.map Prod.snd))

def orderOnce (hash : NodeHash) (op : AssocOp) (e : Expr) : Expr :=
  (e.fold (orderAndHash hash op)).1

theorem digestBuild (hash : NodeHash) (n : Node (Expr × Digest))
    (known : ∀ p ∈ n.children, p.2 = p.1.digest hash)
    (enough : ∀ op args, n = .flat op args → 2 ≤ args.length) :
    (n.map Prod.fst).build.digest hash = hash (n.map Prod.snd) := by
  cases n with
  | const value => simp [Node.map, Node.build, Expr.digest, Expr.foldConst]
  | var name => simp [Node.map, Node.build, Expr.digest, Expr.foldVar]
  | neg arg =>
    simp [Node.children, Expr.digest] at known
    simp [Node.map, Node.build, Expr.digest, Expr.foldNeg, known]
  | bin op left right =>
    simp [Node.children, Expr.digest] at known
    simp [Node.map, Node.build, Expr.digest, Expr.foldBin, known]
  | flat op args =>
    have long := enough op args rfl
    cases args with
    | nil => cases long
    | cons a more =>
      cases more with
      | nil => simp at long
      | cons b rest =>
        have same : (a :: b :: rest).map (Expr.digest hash ∘ Prod.fst) =
            (a :: b :: rest).map Prod.snd :=
          List.map_congr_left fun p mem => (known p mem).symm
        have unfolded : Expr.digest hash = Expr.fold hash := rfl
        rw [← List.map_map, unfolded] at same
        simp only [Node.map, Node.build, List.map_cons, Expr.join, unfolded, Expr.foldFlat]
        simpa using congrArg (fun ds => hash (.flat op ds)) same

theorem childrenOrderNode (op : AssocOp) (n : Node (Expr × Digest)) :
    (orderNode op n).children.Perm n.children := by
  cases n with
  | flat inner args =>
    simp only [orderNode]
    split
    · simpa [Node.children, Sorting.sortEqMergeSort] using List.mergeSort_perm args _
    · exact .rfl
  | bin inner left right =>
    simp only [orderNode]
    split
    · exact .swap _ _ _
    · exact .rfl
  | _ => exact .rfl

theorem digestOrderAndHash (hash : NodeHash) (op : AssocOp) (n : Node (Expr × Digest))
    (known : ∀ p ∈ n.children, p.2 = p.1.digest hash)
    (enough : ∀ op args, n = .flat op args → 2 ≤ args.length) :
    (orderAndHash hash op n).2 = (orderAndHash hash op n).1.digest hash := by
  refine (digestBuild hash (orderNode op n) ?_ ?_).symm
  · exact fun p mem => known p ((childrenOrderNode op n).mem_iff.1 mem)
  · intro inner args eq
    have same := (childrenOrderNode op n).length_eq
    cases n with
    | flat inner' args' =>
      have := enough inner' args' rfl
      simp only [eq, Node.children] at same
      omega
    | bin inner' left right => simp only [orderNode] at eq; split at eq <;> cases eq
    | _ => cases eq

theorem foldOrderAndHash (hash : NodeHash) (op : AssocOp) (e : Expr) :
    e.fold (orderAndHash hash op) =
      (orderOnce hash op e, (orderOnce hash op e).digest hash) := by
  suffices known : (e.fold (orderAndHash hash op)).2 =
      (e.fold (orderAndHash hash op)).1.digest hash from Prod.ext rfl known
  induction e with
  | const value =>
    rw [Expr.foldConst]
    exact digestOrderAndHash hash op _ (by simp [Node.children]) (by simp)
  | var name =>
    rw [Expr.foldVar]
    exact digestOrderAndHash hash op _ (by simp [Node.children]) (by simp)
  | neg arg ih =>
    rw [Expr.foldNeg]
    exact digestOrderAndHash hash op _ (by simpa [Node.children] using ih) (by simp)
  | bin inner left right ihl ihr =>
    rw [Expr.foldBin]
    exact digestOrderAndHash hash op _ (by simpa [Node.children] using ⟨ihl, ihr⟩) (by simp)
  | flat inner first second rest ihf ihs ihr =>
    rw [Expr.foldFlat]
    refine digestOrderAndHash hash op _ ?_ ?_
    · simpa [Node.children] using ⟨ihf, ihs, ihr⟩
    · rintro _ _ ⟨⟩
      simp

theorem orderConst (hash : NodeHash) (op : AssocOp) (value : Int) :
    orderOnce hash op (.const value) = .const value := by
  simp [orderOnce, Expr.foldConst, orderAndHash, orderNode, Node.map, Node.build]

theorem orderVar (hash : NodeHash) (op : AssocOp) (name : String) :
    orderOnce hash op (.var name) = .var name := by
  simp [orderOnce, Expr.foldVar, orderAndHash, orderNode, Node.map, Node.build]

theorem orderNeg (hash : NodeHash) (op : AssocOp) (arg : Expr) :
    orderOnce hash op (.neg arg) = .neg (orderOnce hash op arg) := by
  simp [orderOnce, Expr.foldNeg, orderAndHash, orderNode, Node.map, Node.build]

theorem orderBin (hash : NodeHash) (op : AssocOp) (inner : BinOp) (left right : Expr) :
    orderOnce hash op (.bin inner left right) =
      let l := orderOnce hash op left
      let r := orderOnce hash op right
      if inner = op.bin ∧ ¬ (l.digest hash).le (r.digest hash) then .bin inner r l
      else .bin inner l r := by
  rw [orderOnce, Expr.foldBin, foldOrderAndHash, foldOrderAndHash]
  simp only [orderAndHash, orderNode]
  split <;> simp [*, Node.map, Node.build]

theorem orderFlat (hash : NodeHash) (op inner : AssocOp) (first second : Expr)
    (rest : List Expr) :
    orderOnce hash op (.flat inner first second rest) =
      let args := (first :: second :: rest).map (orderOnce hash op)
      .join inner
        (if inner = op then Sorting.sort (fun a b => (a.digest hash).le (b.digest hash)) args
          else args) := by
  rw [orderOnce, Expr.foldFlat]
  have pairs : (first :: second :: rest).map (Expr.fold (orderAndHash hash op)) =
      ((first :: second :: rest).map (orderOnce hash op)).map fun e => (e, e.digest hash) := by
    rw [List.map_map]
    exact List.map_congr_left fun e _ => foldOrderAndHash hash op e
  rw [pairs]
  generalize (first :: second :: rest).map (orderOnce hash op) = args
  have back : (Prod.fst ∘ fun e : Expr => (e, e.digest hash)) = id := rfl
  simp only [orderAndHash, orderNode]
  split
  · simp only [Node.map, Node.build, Sorting.sortEqMergeSort]
    rw [← List.map_mergeSort (r := fun a b => (a.digest hash).le (b.digest hash)) (by simp)]
    simp [back]
  · simp [Node.map, Node.build, back]

def orderSums (settings : Settings) : Expr → Except Fault Expr :=
  toFixedPoint settings "CanonicalAdds" fun e => pure (orderOnce settings.hash .add e)

def orderProducts (settings : Settings) : Expr → Except Fault Expr :=
  toFixedPoint settings "CanonicalMuls" fun e => pure (orderOnce settings.hash .mul e)

/-- Ordering products changes the digests that sums are ordered by, and the other way round, so
both go on until neither moves anything. -/
def orderOperands (settings : Settings) : Expr → Except Fault Expr :=
  toFixedPoint settings "Canonicalize" fun e => do
    let sums ← orderSums settings e
    orderProducts settings sums

end ArithEquiv.Normalize
