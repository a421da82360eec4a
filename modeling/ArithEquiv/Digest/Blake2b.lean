/-! BLAKE2b without a key and with a result of 128 bits. The working vector is a matrix of
four rows: a mixing of its columns, then of its diagonals, is one round. -/
namespace ArithEquiv.Blake2b

structure Row where
  w0 : UInt64
  w1 : UInt64
  w2 : UInt64
  w3 : UInt64
  deriving DecidableEq, Repr

namespace Row

@[inline]
def add (x y : Row) : Row := ⟨x.w0 + y.w0, x.w1 + y.w1, x.w2 + y.w2, x.w3 + y.w3⟩

@[inline]
def xor (x y : Row) : Row :=
  ⟨x.w0 ^^^ y.w0, x.w1 ^^^ y.w1, x.w2 ^^^ y.w2, x.w3 ^^^ y.w3⟩

@[inline]
def rotateWord (n x : UInt64) : UInt64 := (x >>> n) ||| (x <<< (64 - n))

@[inline]
def rotate (n : UInt64) (x : Row) : Row :=
  ⟨rotateWord n x.w0, rotateWord n x.w1, rotateWord n x.w2, rotateWord n x.w3⟩

@[inline]
def shift1 (x : Row) : Row := ⟨x.w1, x.w2, x.w3, x.w0⟩

@[inline]
def shift2 (x : Row) : Row := ⟨x.w2, x.w3, x.w0, x.w1⟩

@[inline]
def shift3 (x : Row) : Row := ⟨x.w3, x.w0, x.w1, x.w2⟩

end Row

structure Matrix where
  a : Row
  b : Row
  c : Row
  d : Row
  deriving DecidableEq, Repr

namespace Matrix

@[inline]
def mix (x y : Row) (m : Matrix) : Matrix :=
  let a := (m.a.add m.b).add x
  let d := (m.d.xor a).rotate 32
  let c := m.c.add d
  let b := (m.b.xor c).rotate 24
  let a := (a.add b).add y
  let d := (d.xor a).rotate 16
  let c := c.add d
  let b := (b.xor c).rotate 63
  ⟨a, b, c, d⟩

@[inline]
def skew (m : Matrix) : Matrix := ⟨m.a, m.b.shift1, m.c.shift2, m.d.shift3⟩

@[inline]
def unskew (m : Matrix) : Matrix := ⟨m.a, m.b.shift3, m.c.shift2, m.d.shift1⟩

end Matrix

structure Block where
  m0 : UInt64
  m1 : UInt64
  m2 : UInt64
  m3 : UInt64
  m4 : UInt64
  m5 : UInt64
  m6 : UInt64
  m7 : UInt64
  m8 : UInt64
  m9 : UInt64
  m10 : UInt64
  m11 : UInt64
  m12 : UInt64
  m13 : UInt64
  m14 : UInt64
  m15 : UInt64
  deriving DecidableEq, Repr

@[inline]
def round (m : Block) (v : Matrix) : Matrix :=
  let v := v.mix ⟨m.m0, m.m2, m.m4, m.m6⟩ ⟨m.m1, m.m3, m.m5, m.m7⟩
  (v.skew.mix ⟨m.m8, m.m10, m.m12, m.m14⟩ ⟨m.m9, m.m11, m.m13, m.m15⟩).unskew

/-- The twelve rounds. Each takes the words of the block in an order of its own; the last two
repeat the orders of the first two. -/
def rounds (m : Block) (v : Matrix) : Matrix :=
  let ⟨a, b, c, d, e, f, g, h, i, j, k, l, n, o, p, q⟩ := m
  let v := round ⟨a, b, c, d, e, f, g, h, i, j, k, l, n, o, p, q⟩ v
  let v := round ⟨p, k, e, i, j, q, o, g, b, n, a, c, l, h, f, d⟩ v
  let v := round ⟨l, i, n, a, f, c, q, o, k, p, d, g, h, b, j, e⟩ v
  let v := round ⟨h, j, d, b, o, n, l, p, c, g, f, k, e, a, q, i⟩ v
  let v := round ⟨j, a, f, h, c, e, k, q, p, b, l, n, g, i, d, o⟩ v
  let v := round ⟨c, n, g, k, a, l, i, d, e, o, h, f, q, p, b, j⟩ v
  let v := round ⟨n, f, b, q, p, o, e, k, a, h, g, d, j, c, i, l⟩ v
  let v := round ⟨o, l, h, p, n, b, d, j, f, a, q, e, i, g, c, k⟩ v
  let v := round ⟨g, q, p, j, l, d, a, i, n, c, o, h, b, e, k, f⟩ v
  let v := round ⟨k, c, i, e, h, g, b, f, q, l, j, p, d, n, o, a⟩ v
  let v := round ⟨a, b, c, d, e, f, g, h, i, j, k, l, n, o, p, q⟩ v
  round ⟨p, k, e, i, j, q, o, g, b, n, a, c, l, h, f, d⟩ v

structure Chain where
  low : Row
  high : Row
  deriving DecidableEq, Repr

def initial : Chain where
  low := ⟨0x6a09e667f3bcc908, 0xbb67ae8584caa73b, 0x3c6ef372fe94f82b, 0xa54ff53a5f1d36f1⟩
  high := ⟨0x510e527fade682d1, 0x9b05688c2b3e6c1f, 0x1f83d9abfb41bd6b, 0x5be0cd19137e2179⟩

def resultLength : UInt64 := 16

/-- The initial words with the parameters mixed in: no key, one hash and no tree of hashes. -/
def start : Chain where
  low := initial.low.xor ⟨0x01010000 ^^^ resultLength, 0, 0, 0⟩
  high := initial.high

/-- One block, where `count` bytes of the message end with it. -/
def compress (chain : Chain) (block : Block) (count : UInt64) (last : Bool) : Chain :=
  let flag : UInt64 := if last then 0xffffffffffffffff else 0
  let v := rounds block
    ⟨chain.low, chain.high, initial.low, initial.high.xor ⟨count, 0, flag, 0⟩⟩
  ⟨(chain.low.xor v.a).xor v.c, (chain.high.xor v.b).xor v.d⟩

def littleEndian (bytes : List UInt8) : UInt64 :=
  bytes.foldr (fun byte word => (word <<< 8) ||| byte.toUInt64) 0

def word : List UInt8 → UInt64 × List UInt8
  | a :: b :: c :: d :: e :: f :: g :: h :: rest => (littleEndian [a, b, c, d, e, f, g, h], rest)
  | bytes => (littleEndian bytes, [])

def block (bytes : List UInt8) : Block × List UInt8 :=
  let (m0, bytes) := word bytes
  let (m1, bytes) := word bytes
  let (m2, bytes) := word bytes
  let (m3, bytes) := word bytes
  let (m4, bytes) := word bytes
  let (m5, bytes) := word bytes
  let (m6, bytes) := word bytes
  let (m7, bytes) := word bytes
  let (m8, bytes) := word bytes
  let (m9, bytes) := word bytes
  let (m10, bytes) := word bytes
  let (m11, bytes) := word bytes
  let (m12, bytes) := word bytes
  let (m13, bytes) := word bytes
  let (m14, bytes) := word bytes
  let (m15, bytes) := word bytes
  (⟨m0, m1, m2, m3, m4, m5, m6, m7, m8, m9, m10, m11, m12, m13, m14, m15⟩, bytes)

def absorb : (full : Nat) → (count : Nat) → Chain → List UInt8 → Chain
  | 0, count, chain, bytes =>
      compress chain (block bytes).1 (count + bytes.length).toUInt64 true
  | full + 1, count, chain, bytes =>
      let (head, rest) := block bytes
      let count := count + 128
      absorb full count (compress chain head count.toUInt64 false) rest

def hash (message : List UInt8) : UInt64 × UInt64 :=
  let chain := absorb ((message.length - 1) / 128) 0 start message
  (chain.low.w0, chain.low.w1)

end ArithEquiv.Blake2b
