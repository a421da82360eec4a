import ArithEquiv.Digest.Blake2b
import ArithEquiv.Text.Hex

/-! A digest is a number of 128 bits, kept as two words. Digests are compared as numbers. -/
namespace ArithEquiv

structure Digest where
  high : UInt64
  low : UInt64
  deriving DecidableEq, Repr

namespace Digest

def toNat (d : Digest) : Nat := d.high.toNat * 0x10000000000000000 + d.low.toNat

def le (a b : Digest) : Bool :=
  a.high < b.high || (a.high == b.high && a.low ≤ b.low)

theorem leIff (a b : Digest) : le a b = true ↔ a.toNat ≤ b.toNat := by
  have ha := a.low.toNat_lt
  have hb := b.low.toNat_lt
  simp only [le, toNat, Bool.or_eq_true, Bool.and_eq_true, decide_eq_true_eq, beq_iff_eq,
    UInt64.lt_iff_toNat_lt, UInt64.le_iff_toNat_le, ← UInt64.toNat_inj]
  omega

theorem toNatInj {a b : Digest} (h : a.toNat = b.toNat) : a = b := by
  have ha := a.low.toNat_lt
  have hb := b.low.toNat_lt
  obtain ⟨ah, al⟩ := a
  obtain ⟨bh, bl⟩ := b
  simp only [toNat, Digest.mk.injEq, ← UInt64.toNat_inj] at *
  omega

def compare (a b : Digest) : Ordering := Ord.compare a.toNat b.toNat

def wordBytes (w : UInt64) : List UInt8 :=
  [(w >>> 56).toUInt8, (w >>> 48).toUInt8, (w >>> 40).toUInt8, (w >>> 32).toUInt8,
    (w >>> 24).toUInt8, (w >>> 16).toUInt8, (w >>> 8).toUInt8, w.toUInt8]

def bytes (d : Digest) : List UInt8 := wordBytes d.high ++ wordBytes d.low

def reverseWord (w : UInt64) : UInt64 := Blake2b.littleEndian (wordBytes w)

def ofMessage (message : List UInt8) : Digest :=
  let (first, second) := Blake2b.hash message
  ⟨reverseWord first, reverseWord second⟩

def render (d : Digest) : String :=
  String.ofList (Text.hex 16 d.high.toNat ++ Text.hex 16 d.low.toNat)

end Digest

end ArithEquiv
