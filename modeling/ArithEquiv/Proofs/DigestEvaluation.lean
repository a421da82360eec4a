import ArithEquiv.Expr.Fingerprint

/-! Evaluating digests inside a proof. The words that a hash mixes stand for numbers, and the mixing may
be done on these. It gives the same digests, and in a fraction of the time: arithmetic on numbers is
what evaluation is best at, so the operations of `Nat` are called by their own names here. -/
namespace ArithEquiv

namespace Blake2b

structure Quad where
  n0 : Nat
  n1 : Nat
  n2 : Nat
  n3 : Nat

def sumNumber (x y : Nat) : Nat := Nat.mod (Nat.add x y) 0x10000000000000000

def rotateNumber (n x : Nat) : Nat :=
  Nat.lor (Nat.shiftRight x n) (Nat.mod (Nat.shiftLeft x (Nat.sub 64 n)) 0x10000000000000000)

namespace Quad

def add (x y : Quad) : Quad :=
  ⟨sumNumber x.n0 y.n0, sumNumber x.n1 y.n1, sumNumber x.n2 y.n2, sumNumber x.n3 y.n3⟩

def xor (x y : Quad) : Quad :=
  ⟨Nat.xor x.n0 y.n0, Nat.xor x.n1 y.n1, Nat.xor x.n2 y.n2, Nat.xor x.n3 y.n3⟩

def rotate (n : Nat) (x : Quad) : Quad :=
  ⟨rotateNumber n x.n0, rotateNumber n x.n1, rotateNumber n x.n2, rotateNumber n x.n3⟩

def shift1 (x : Quad) : Quad := ⟨x.n1, x.n2, x.n3, x.n0⟩

def shift2 (x : Quad) : Quad := ⟨x.n2, x.n3, x.n0, x.n1⟩

def shift3 (x : Quad) : Quad := ⟨x.n3, x.n0, x.n1, x.n2⟩

end Quad

def Row.numbers (x : Row) : Quad := ⟨x.w0.toNat, x.w1.toNat, x.w2.toNat, x.w3.toNat⟩

theorem addNumbers (x y : Row) : (x.add y).numbers = x.numbers.add y.numbers := by
  simp only [Row.numbers, Row.add, UInt64.toNat_add]
  rfl

theorem xorNumbers (x y : Row) : (x.xor y).numbers = x.numbers.xor y.numbers := by
  simp only [Row.numbers, Row.xor, UInt64.toNat_xor]
  rfl

theorem rotateNumbers {n : UInt64} (x : Row) (some : 0 < n.toNat) (few : n.toNat < 64) :
    (x.rotate n).numbers = x.numbers.rotate n.toNat := by
  have rest : (64 - n).toNat = 64 - n.toNat :=
    UInt64.toNat_sub_of_le _ _ (UInt64.le_iff_toNat_le.2 (Nat.le_of_lt few))
  have word (w : UInt64) : (Row.rotateWord n w).toNat = rotateNumber n.toNat w.toNat := by
    rw [Row.rotateWord, UInt64.toNat_or, UInt64.toNat_shiftRight, UInt64.toNat_shiftLeft, rest,
      Nat.mod_eq_of_lt few, Nat.mod_eq_of_lt (b := 64) (by omega)]
    rfl
  simp only [Row.numbers, Row.rotate, Quad.rotate, word]

structure Square where
  a : Quad
  b : Quad
  c : Quad
  d : Quad

namespace Square

def mix (x y : Quad) (m : Square) : Square :=
  let a := (m.a.add m.b).add x
  let d := (m.d.xor a).rotate 32
  let c := m.c.add d
  let b := (m.b.xor c).rotate 24
  let a := (a.add b).add y
  let d := (d.xor a).rotate 16
  let c := c.add d
  let b := (b.xor c).rotate 63
  ⟨a, b, c, d⟩

def skew (m : Square) : Square := ⟨m.a, m.b.shift1, m.c.shift2, m.d.shift3⟩

def unskew (m : Square) : Square := ⟨m.a, m.b.shift3, m.c.shift2, m.d.shift1⟩

def round (m : Block) (v : Square) : Square :=
  let v := v.mix ⟨m.m0.toNat, m.m2.toNat, m.m4.toNat, m.m6.toNat⟩
    ⟨m.m1.toNat, m.m3.toNat, m.m5.toNat, m.m7.toNat⟩
  (v.skew.mix ⟨m.m8.toNat, m.m10.toNat, m.m12.toNat, m.m14.toNat⟩
    ⟨m.m9.toNat, m.m11.toNat, m.m13.toNat, m.m15.toNat⟩).unskew

def rounds (m : Block) (v : Square) : Square :=
  let ⟨a, b, c, d, e, f, g, h, i, j, k, l, n, o, p, q⟩ := m
  let v := round ⟨a, b, c, d, e, f, g, h, i, j, k, l, n, o, p, q⟩ v
  let v := round ⟨p, k, e, i, j, q, o, g, b, n, a, c, l, h, f, d⟩ v
  let v := round ⟨l, i, n, a, f, c, q, o, k, p, d, g, h, b, j, e⟩ v
  let v := round ⟨h, j, d, b, o, n, l, p, c, g, f, k, e, a, q, i⟩ v
  let v := round ⟨j, a, f, h, c, e, k, q, p, b, l, n, g, i, d, o⟩ v
  let v := round ⟨c, n, g, k, a, l, i, d, e, o, h, f, q, p, b, j⟩ v
  let v := round ⟨n, f, b, q, p, o, e, k, a, h, g, d, j, c, i, l⟩ v
  let v := round ⟨o, l, h, p, n, b, d, j, f, a, q, e, i, g, c, k⟩ v
  let v := round ⟨g, q, p, j, l, d, a, i, n, c, o, h, b, e, k, f⟩ v
  let v := round ⟨k, c, i, e, h, g, b, f, q, l, j, p, d, n, o, a⟩ v
  let v := round ⟨a, b, c, d, e, f, g, h, i, j, k, l, n, o, p, q⟩ v
  round ⟨p, k, e, i, j, q, o, g, b, n, a, c, l, h, f, d⟩ v

end Square

def Matrix.numbers (m : Matrix) : Square := ⟨m.a.numbers, m.b.numbers, m.c.numbers, m.d.numbers⟩

theorem mixNumbers (x y : Row) (m : Matrix) :
    (m.mix x y).numbers = m.numbers.mix x.numbers y.numbers := by
  have by32 (x : Row) : (x.rotate 32).numbers = x.numbers.rotate 32 :=
    rotateNumbers x (by decide) (by decide)
  have by24 (x : Row) : (x.rotate 24).numbers = x.numbers.rotate 24 :=
    rotateNumbers x (by decide) (by decide)
  have by16 (x : Row) : (x.rotate 16).numbers = x.numbers.rotate 16 :=
    rotateNumbers x (by decide) (by decide)
  have by63 (x : Row) : (x.rotate 63).numbers = x.numbers.rotate 63 :=
    rotateNumbers x (by decide) (by decide)
  simp only [Matrix.mix, Matrix.numbers, Square.mix, addNumbers, xorNumbers, by32, by24, by16, by63]

theorem roundNumbers (m : Block) (v : Matrix) : (round m v).numbers = v.numbers.round m := by
  have skewed (v : Matrix) : v.skew.numbers = v.numbers.skew := rfl
  have unskewed (v : Matrix) : v.unskew.numbers = v.numbers.unskew := rfl
  simp only [round, Square.round, unskewed, mixNumbers, skewed, Row.numbers]

theorem roundsNumbers (m : Block) (v : Matrix) : (rounds m v).numbers = v.numbers.rounds m := by
  simp only [rounds, Square.rounds, roundNumbers]

def lastNumbers (chain : Chain) (block : Block) (count : UInt64) : Quad :=
  let ends : Row := initial.high.xor ⟨count, 0, 0xffffffffffffffff, 0⟩
  let v := Square.rounds block
    ⟨chain.low.numbers, chain.high.numbers, initial.low.numbers, ends.numbers⟩
  (chain.low.numbers.xor v.a).xor v.c

theorem compressNumbers (chain : Chain) (block : Block) (count : UInt64) :
    (compress chain block count true).low.numbers = lastNumbers chain block count := by
  have mixed := roundsNumbers block ⟨chain.low, chain.high, initial.low,
    initial.high.xor ⟨count, 0, 0xffffffffffffffff, 0⟩⟩
  simp only [Matrix.numbers, xorNumbers] at mixed
  simp only [compress, lastNumbers, xorNumbers, if_true, ← mixed]

theorem hashNumbers {message : List UInt8} (short : message.length ≤ 128) :
    hash message =
      let numbers := lastNumbers start (block message).1 message.length.toUInt64
      (UInt64.ofNat numbers.n0, UInt64.ofNat numbers.n1) := by
  have one : (message.length - 1) / 128 = 0 := by omega
  rw [hash, one, absorb, ← compressNumbers]
  simp only [Row.numbers, UInt64.ofNat_toNat, Nat.zero_add]

end Blake2b

namespace Digest

open Blake2b

def byNumbers (message : List UInt8) : Digest :=
  if message.length ≤ 128 then
    let numbers := lastNumbers start (block message).1 message.length.toUInt64
    ⟨reverseWord (.ofNat numbers.n0), reverseWord (.ofNat numbers.n1)⟩
  else ofMessage message

theorem ofMessageEq : ofMessage = byNumbers := by
  funext message
  rw [byNumbers]
  split
  · rename_i short
    rw [ofMessage, hashNumbers short]
  · rfl

end Digest

theorem Node.digestEq : digest = fun n => Digest.byNumbers n.message := by
  rw [← Digest.ofMessageEq]
  rfl

end ArithEquiv
