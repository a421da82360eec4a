import ArithEquiv.Proofs.Comparison
import ArithEquiv.Proofs.Traversal

/-! The bytes that are hashed for a node can be read in one way only. The tag ends at the first colon
and the length of the payload at the next one; the length counts characters, and no character's
encoding begins another's, so the payload ends where it must. What is left are digests of sixteen
bytes each. Trees with the same digest are therefore the same, unless two of their messages collide. -/
namespace ArithEquiv

section Encoding

variable {c d : Char} {cs ds : List Char} {xs ys : List UInt8}

theorem encodedFirst (same : String.utf8EncodeChar c ++ xs = String.utf8EncodeChar d ++ ys) :
    c = d ∧ xs = ys := by
  have bytes := congrArg List.toByteArray same
  rw [List.toByteArray_append, List.toByteArray_append] at bytes
  have decoded := congrArg (ByteArray.utf8DecodeChar? · 0) bytes
  simp only [ByteArray.utf8DecodeChar?_utf8EncodeChar_append] at decoded
  obtain rfl := Option.some.inj decoded
  exact ⟨rfl, List.append_cancel_left same⟩

theorem encodedBegin
    (same : cs.flatMap String.utf8EncodeChar ++ xs = ds.flatMap String.utf8EncodeChar ++ ys) :
    (∃ more, ds = cs ++ more) ∨ ∃ more, cs = ds ++ more := by
  induction cs generalizing ds with
  | nil => exact .inl ⟨ds, rfl⟩
  | cons c cs ih =>
    cases ds with
    | nil => exact .inr ⟨c :: cs, rfl⟩
    | cons d ds =>
      rw [List.flatMap_cons, List.flatMap_cons, List.append_assoc, List.append_assoc] at same
      obtain ⟨rfl, rest⟩ := encodedFirst same
      rcases ih rest with ⟨more, rfl⟩ | ⟨more, rfl⟩
      · exact .inl ⟨more, rfl⟩
      · exact .inr ⟨more, rfl⟩

theorem bytesOfText (text : String) :
    text.toUTF8.data.toList = text.toList.flatMap String.utf8EncodeChar := by
  rw [String.toUTF8_eq_toByteArray, ← String.utf8Encode_toList, List.utf8Encode,
    List.data_toByteArray]

end Encoding

section Numerals

theorem reprInjective {m n : Nat} (same : m.repr = n.repr) : m = n := by
  have digits := congrArg String.toList same
  rw [Nat.toList_repr, Nat.toList_repr] at digits
  rw [← Nat.ofDigitChars_toDigits (b := 10) (n := m) (by decide) (by decide), digits,
    Nat.ofDigitChars_toDigits (by decide) (by decide)]

theorem reprPlain {c : Char} (n : Nat) (other : c.isDigit = false) : c ∉ n.repr.toList := by
  intro mem
  rw [Nat.toList_repr] at mem
  cases other.symm.trans (Nat.isDigit_of_mem_toDigits (by decide) (by decide) mem)

theorem writeInjective {m n : Int} (same : Numeral.write m = Numeral.write n) : m = n := by
  have signed (k l : Nat) : "-" ++ k.repr ≠ l.repr := by
    intro same
    refine reprPlain (c := '-') l (by decide) ?_
    rw [← same, String.toList_append]
    exact List.mem_cons_self
  unfold Numeral.write at same
  split at same <;> split at same
  · have digits := reprInjective ((String.append_right_inj _).1 same)
    omega
  · exact absurd same (signed _ _)
  · exact absurd same.symm (signed _ _)
  · have digits := reprInjective same
    omega

end Numerals

namespace Digest

theorem wordBytesInjective {v w : UInt64} (same : wordBytes v = wordBytes w) : v = w := by
  simp only [wordBytes, List.cons.injEq, and_true, ← UInt8.toNat_inj, UInt64.toNat_toUInt8,
    UInt64.toNat_shiftRight, Nat.shiftRight_eq_div_pow] at same
  have hv := v.toNat_lt
  have hw := w.toNat_lt
  rw [← UInt64.toNat_inj]
  simp at same
  omega

theorem bytesInjective {d d' : Digest} (same : d.bytes = d'.bytes) : d = d' := by
  obtain ⟨high, low⟩ := List.append_inj same rfl
  obtain ⟨h, l⟩ := d
  obtain ⟨h', l'⟩ := d'
  obtain rfl : h = h' := wordBytesInjective high
  obtain rfl : l = l' := wordBytesInjective low
  rfl

theorem allBytesInjective {ds ds' : List Digest} (same : ds.flatMap bytes = ds'.flatMap bytes) :
    ds = ds' := by
  induction ds generalizing ds' with
  | nil =>
    cases ds' with
    | nil => rfl
    | cons d' ds' => cases same
  | cons d ds ih =>
    cases ds' with
    | nil => cases same
    | cons d' ds' =>
      obtain ⟨first, rest⟩ := List.append_inj same rfl
      rw [bytesInjective first, ih rest]

end Digest

namespace Node

def frame (tag payload : String) (children : List Digest) : List UInt8 :=
  (tag ++ ":" ++ payload.length.repr ++ ":" ++ payload).toUTF8.data.toList ++
    children.flatMap Digest.bytes

theorem messageFramed (n : Node Digest) : n.message = frame n.tag n.payload n.children := rfl

section Headings

variable {tag tag' payload payload' : String}

def headed (tag payload : String) : List Char :=
  tag.toList ++ ':' :: (payload.length.repr.toList ++ ':' :: payload.toList)

theorem frameHeaded (tag payload : String) (children : List Digest) :
    frame tag payload children =
      (headed tag payload).flatMap String.utf8EncodeChar ++ children.flatMap Digest.bytes := by
  rw [frame, bytesOfText]
  simp [headed, String.toList_append]

theorem firstColon {xs ys xs' ys' : List Char} (plain : ':' ∉ xs) (plain' : ':' ∉ xs')
    (same : xs ++ ':' :: ys = xs' ++ ':' :: ys') : xs = xs' ∧ ys = ys' := by
  induction xs generalizing xs' with
  | nil =>
    cases xs' with
    | nil => exact ⟨rfl, List.tail_eq_of_cons_eq same⟩
    | cons x' xs' =>
      obtain rfl : ':' = x' := List.head_eq_of_cons_eq same
      exact absurd List.mem_cons_self plain'
  | cons x xs ih =>
    cases xs' with
    | nil =>
      obtain rfl : x = ':' := List.head_eq_of_cons_eq same
      exact absurd List.mem_cons_self plain
    | cons x' xs' =>
      obtain ⟨rfl, rest⟩ := List.cons.inj same
      obtain ⟨rfl, tails⟩ := ih (fun mem => plain (List.mem_cons_of_mem _ mem))
        (fun mem => plain' (List.mem_cons_of_mem _ mem)) rest
      exact ⟨rfl, tails⟩

theorem headingsMeet {more : List Char} (plain : ':' ∉ tag.toList) (plain' : ':' ∉ tag'.toList)
    (same : headed tag' payload' = headed tag payload ++ more) :
    tag' = tag ∧ payload' = payload := by
  have colon (n : Nat) : ':' ∉ n.repr.toList := reprPlain n (by decide)
  simp only [headed, List.append_assoc, List.cons_append] at same
  obtain ⟨tags, rest⟩ := firstColon plain' plain same
  obtain ⟨lengths, payloads⟩ := firstColon (colon _) (colon _) rest
  have count : payload'.toList.length = payload.toList.length := by
    rw [String.length_toList, String.length_toList]
    exact reprInjective (String.toList_injective lengths)
  rw [← List.append_nil payload'.toList] at payloads
  exact ⟨String.toList_injective tags, String.toList_injective (List.append_inj_left payloads count)⟩

theorem frameInjective {children children' : List Digest} (plain : ':' ∉ tag.toList)
    (plain' : ':' ∉ tag'.toList) (same : frame tag payload children = frame tag' payload' children') :
    tag = tag' ∧ payload = payload' ∧ children = children' := by
  rw [frameHeaded, frameHeaded] at same
  obtain ⟨rfl, rfl⟩ : tag = tag' ∧ payload = payload' := by
    rcases encodedBegin same with ⟨more, begun⟩ | ⟨more, begun⟩
    · obtain ⟨tags, payloads⟩ := headingsMeet plain plain' begun
      exact ⟨tags.symm, payloads.symm⟩
    · exact headingsMeet plain' plain begun
  exact ⟨rfl, rfl, Digest.allBytesInjective (List.append_cancel_left same)⟩

end Headings

theorem tagPlain {α : Type u} (n : Node α) : ':' ∉ n.tag.toList := by
  cases n <;> simp [tag]

theorem messageParts {n n' : Node Digest} (same : n.message = n'.message) :
    n.tag = n'.tag ∧ n.payload = n'.payload ∧ n.children = n'.children := by
  rw [messageFramed, messageFramed] at same
  exact frameInjective n.tagPlain n'.tagPlain same

theorem labelled {α : Type u} {n n' : Node α} (tag : n.tag = n'.tag) (payload : n.payload = n'.payload) :
    n.variant = n'.variant ∧ n.label = n'.label := by
  cases n <;> cases n'
  case const.const => exact ⟨rfl, congrArg Label.number (writeInjective payload)⟩
  case var.var => exact ⟨rfl, congrArg Label.text payload⟩
  case neg.neg => exact ⟨rfl, rfl⟩
  case bin.bin => exact ⟨rfl, congrArg Label.text payload⟩
  case flat.flat => exact ⟨rfl, congrArg Label.text payload⟩
  all_goals exact absurd tag (by simp [Node.tag])

end Node

namespace Expr

theorem digestNode (hash : NodeHash) (e : Expr) :
    e.digest hash = hash (e.node.map (digest hash)) := by
  cases e with
  | const value => exact foldConst hash value
  | var name => exact foldVar hash name
  | neg arg => exact foldNeg hash arg
  | bin op left right => exact foldBin hash op left right
  | flat op first second rest => exact foldFlat hash op first second rest

def message (e : Expr) : List UInt8 := (e.node.map (digest Node.digest)).message

def messages (e : Expr) : List (List UInt8) := e.postorder.map message

def Uncollided (messages : List (List UInt8)) : Prop :=
  ∀ m ∈ messages, ∀ n ∈ messages, Digest.ofMessage m = Digest.ofMessage n → m = n

instance (messages : List (List UInt8)) : Decidable (Uncollided messages) := by
  unfold Uncollided
  infer_instance

theorem messageRoot (e : Expr) : e.message ∈ e.messages := by
  rw [messages, postorderEq, List.map_append]
  exact List.mem_append_right _ List.mem_cons_self

theorem messagesChild {e part : Expr} (mem : part ∈ e.children) : part.messages ⊆ e.messages := by
  intro m inside
  rw [messages, postorderEq, List.map_append, List.map_flatMap]
  exact List.mem_append_left _ (List.mem_flatMap.2 ⟨part, mem, inside⟩)

theorem messageNode {a b : Expr} (same : a.message = b.message) :
    a.node.variant = b.node.variant ∧ a.node.label = b.node.label ∧
      a.children.map (digest Node.digest) = b.children.map (digest Node.digest) := by
  have kept (e : Expr) : (e.node.map (digest Node.digest)).tag = e.node.tag ∧
      (e.node.map (digest Node.digest)).payload = e.node.payload ∧
      (e.node.map (digest Node.digest)).children = e.children.map (digest Node.digest) := by
    cases e <;> exact ⟨rfl, rfl, rfl⟩
  obtain ⟨tag, payload, parts⟩ := Node.messageParts same
  obtain ⟨tagA, payloadA, partsA⟩ := kept a
  obtain ⟨tagB, payloadB, partsB⟩ := kept b
  rw [tagA, tagB] at tag
  rw [payloadA, payloadB] at payload
  rw [partsA, partsB] at parts
  obtain ⟨variant, label⟩ := Node.labelled tag payload
  exact ⟨variant, label, parts⟩

theorem keysMeet {key : Expr → Digest} {as bs : List Expr}
    (each : ∀ a ∈ as, ∀ b ∈ bs, key a = key b → a = b) (same : as.map key = bs.map key) : as = bs := by
  induction as generalizing bs with
  | nil => exact (List.map_eq_nil_iff.1 same.symm).symm
  | cons a as ih =>
    cases bs with
    | nil => cases same
    | cons b bs =>
      obtain ⟨first, rest⟩ := List.cons.inj same
      rw [each a (by simp) b (by simp) first,
        ih (fun a memA b memB => each a (by simp [memA]) b (by simp [memB])) rest]

theorem digestsMeet {a b : Expr} (apart : Uncollided (a.messages ++ b.messages))
    (same : a.digest Node.digest = b.digest Node.digest) : a = b := by
  induction a using byChildren generalizing b with
  | each a ih =>
    rw [digestNode, digestNode] at same
    have one : a.message = b.message := apart _ (List.mem_append_left _ a.messageRoot) _
      (List.mem_append_right _ b.messageRoot) same
    obtain ⟨variant, label, parts⟩ := messageNode one
    refine nodeUnique variant label (keysMeet (fun p memA q memB same => ?_) parts)
    have within : p.messages ++ q.messages ⊆ a.messages ++ b.messages :=
      List.append_subset.2 ⟨fun _ mem => List.mem_append_left _ (messagesChild memA mem),
        fun _ mem => List.mem_append_right _ (messagesChild memB mem)⟩
    exact ih p memA (fun m memM n memN => apart m (within memM) n (within memN)) same

theorem messagesTell :
    (∀ (tag tag' payload payload' : String) (children children' : List Digest),
      ':' ∉ tag.toList → ':' ∉ tag'.toList →
      Node.frame tag payload children = Node.frame tag' payload' children' →
      tag = tag' ∧ payload = payload' ∧ children = children') ∧
    (∀ n n' : Node Digest, n.message = n'.message →
      n.tag = n'.tag ∧ n.payload = n'.payload ∧ n.children = n'.children) ∧
    ∀ a b : Expr, Uncollided (a.messages ++ b.messages) →
      a.digest Node.digest = b.digest Node.digest → a = b :=
  ⟨fun _ _ _ _ _ _ => Node.frameInjective, fun _ _ => Node.messageParts, fun _ _ => digestsMeet⟩

/- A name that imitates the heading of another one. -/
def colonSum : Expr := .bin .add (.var "x:3:var") (.neg (.var "é"))

def colonDifference : Expr := .bin .sub (.var "x:3:var") (.var "é")

def otherSum : Expr := .bin .add (.var "x") (.neg (.var "3:varé"))

theorem messagesTellColons :
    (Uncollided (colonSum.messages ++ (Normalize.subToAdd colonDifference).messages) ∧
      colonSum.digest Node.digest = (Normalize.subToAdd colonDifference).digest Node.digest ∧
      colonSum = Normalize.subToAdd colonDifference) ∧
    (Uncollided (colonSum.messages ++ otherSum.messages) ∧
      colonSum.digest Node.digest ≠ otherSum.digest Node.digest) ∧
    ':' ∉ "var".toList ∧ Node.message (.var "x:1:y") = Node.frame "var" "x:1:y" [] ∧
    Node.tag (.var "x:1:y" : Node Digest) = "var" ∧ Node.payload (.var "x:1:y" : Node Digest) = "x:1:y" ∧
      Node.children (.var "x:1:y" : Node Digest) = [] := by
  have apart : Uncollided (colonSum.messages ++ (Normalize.subToAdd colonDifference).messages) := by
    rw [Uncollided, Digest.ofMessageEq]
    decide +kernel
  have same : colonSum.digest Node.digest =
      (Normalize.subToAdd colonDifference).digest Node.digest := by
    rw [Node.digestEq]
    decide +kernel
  have apart' : Uncollided (colonSum.messages ++ otherSum.messages) := by
    rw [Uncollided, Digest.ofMessageEq]
    decide +kernel
  refine ⟨⟨apart, same, messagesTell.2.2 _ _ apart same⟩, ⟨apart', fun alike => ?_⟩, by decide, rfl, ?_⟩
  · exact absurd (messagesTell.2.2 _ _ apart' alike) (by decide +kernel)
  · exact messagesTell.1 _ _ _ _ _ _ (by decide) (by decide) rfl

end Expr

end ArithEquiv
