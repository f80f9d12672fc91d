import Mathlib.Data.UInt
import Mathlib.Tactic.IntervalCases

/-!
# Big-Endian Words

Fixed-width words as byte sequences, most significant byte first.

A word is taken apart by shifts and masks and put together by shifts and `or`.
A byte read through a signed character arrives sign-extended (`widen`); masking it
with `0xff` gives the byte back, so a word assembled from masked bytes does not
depend on how the bytes were widened.

The bytes of a word are compared bit by bit: on each of the finitely many
positions both sides are literal bits.

## Main definitions

* `widen`: A byte as a sign-extended 32-bit value.
* `be16`, `be32`, `be64`: The bytes of a word.
* `ofBe16`, `ofBe32`, `ofBe64`: The word of its bytes.

## Theorems

* `ofBe16_be16`, `ofBe32_be32`, `ofBe64_be64`: The bytes of a word determine it.
* `be16_ofBe16`, `be32_ofBe32`, `be64_ofBe64`: Every sequence of bytes is the bytes
  of the word read from it.
-/

namespace Yfs

namespace Word

/-- A signed character promoted to an unsigned 32-bit value. -/
def widen (b : UInt8) : UInt32 :=
  b.toInt8.toInt32.toUInt32

/-- The byte of `x` that starts at bit `k`. -/
def byte (x k : UInt32) : UInt8 :=
  ((x >>> k) &&& 0xff).toUInt8

def be16 (x : UInt16) : List UInt8 :=
  [byte x.toUInt32 8, byte x.toUInt32 0]

def be32 (x : UInt32) : List UInt8 :=
  [byte x 24, byte x 16, byte x 8, byte x 0]

/-- The upper half comes first. -/
def be64 (x : UInt64) : List UInt8 :=
  be32 (x >>> 32).toUInt32 ++ be32 x.toUInt32

/-- Assembled from widened bytes, each masked. -/
def ofBe16 (a b : UInt32) : UInt16 :=
  ((a &&& 0xff) <<< 8).toUInt16 ||| (b &&& 0xff).toUInt16

def ofBe32 (a b c d : UInt32) : UInt32 :=
  ((a &&& 0xff) <<< 24) ||| ((b &&& 0xff) <<< 16) ||| ((c &&& 0xff) <<< 8) ||| (d &&& 0xff)

def ofBe64 (h l : UInt32) : UInt64 :=
  l.toUInt64 ||| (h.toUInt64 <<< 32)

theorem widen_and (b : UInt8) : widen b &&& 0xff = b.toUInt32 := by
  apply UInt32.toBitVec_inj.mp
  apply BitVec.eq_of_getLsbD_eq
  intro i hi
  simp only [widen, UInt32.toBitVec_and, Int32.toBitVec_toUInt32, Int8.toBitVec_toInt32,
    UInt8.toBitVec_toInt8, UInt32.toBitVec_ofNat, BitVec.getLsbD_and, UInt8.toBitVec_toUInt32]
  -- The mask keeps the lower eight bits; the sign is copied above them.
  interval_cases i <;> simp [BitVec.getElem_signExtend]

theorem widen_toUInt8 (b : UInt8) : (widen b).toUInt8 = b := by
  apply UInt8.toBitVec_inj.mp
  apply BitVec.eq_of_getLsbD_eq
  intro i hi
  simp only [widen, UInt32.toBitVec_toUInt8, Int32.toBitVec_toUInt32, Int8.toBitVec_toInt32,
    UInt8.toBitVec_toInt8]
  interval_cases i <;> simp [BitVec.getElem_signExtend]

theorem byte_toUInt32 (x k : UInt32) : (byte x k).toUInt32 = (x >>> k) &&& 0xff := by
  have hlt : ((x >>> k) &&& 0xff).toNat < 256 := by
    rw [UInt32.toNat_and]
    exact Nat.lt_of_le_of_lt Nat.and_le_right (by decide)
  apply UInt32.toNat_inj.mp
  unfold byte
  rw [UInt8.toNat_toUInt32, UInt32.toNat_toUInt8]
  exact Nat.mod_eq_of_lt hlt

theorem ofBe16_be16 (x : UInt16) :
    ofBe16 (widen (byte x.toUInt32 8)) (widen (byte x.toUInt32 0)) = x := by
  simp only [ofBe16, widen_and, byte_toUInt32]
  apply UInt16.toBitVec_inj.mp
  apply BitVec.eq_of_getLsbD_eq
  intro i hi
  interval_cases i <;> simp

theorem ofBe32_be32 (x : UInt32) :
    ofBe32 (widen (byte x 24)) (widen (byte x 16)) (widen (byte x 8)) (widen (byte x 0)) = x := by
  simp only [ofBe32, widen_and, byte_toUInt32]
  apply UInt32.toBitVec_inj.mp
  apply BitVec.eq_of_getLsbD_eq
  intro i hi
  -- Each position of the word is one position of one byte.
  interval_cases i <;> simp

theorem ofBe64_be64 (x : UInt64) : ofBe64 (x >>> 32).toUInt32 x.toUInt32 = x := by
  apply UInt64.toBitVec_inj.mp
  apply BitVec.eq_of_getLsbD_eq
  intro i hi
  simp only [ofBe64, UInt64.toBitVec_or, UInt32.toBitVec_toUInt64, UInt64.toBitVec_toUInt32,
    UInt64.toBitVec_shiftLeft, UInt64.toBitVec_shiftRight, BitVec.getLsbD_or,
    BitVec.getLsbD_setWidth]
  interval_cases i <;> simp

theorem be16_ofBe16 (a b : UInt8) : be16 (ofBe16 (widen a) (widen b)) = [a, b] := by
  simp only [be16, ofBe16, widen_and, byte, List.cons.injEq, and_true]
  refine ⟨?_, ?_⟩ <;>
  · apply UInt8.toBitVec_inj.mp
    apply BitVec.eq_of_getLsbD_eq
    intro i hi
    simp only [UInt32.toBitVec_toUInt8, UInt32.toBitVec_and, UInt32.toBitVec_shiftRight,
      UInt16.toBitVec_toUInt32, UInt16.toBitVec_or, UInt32.toBitVec_toUInt16,
      UInt32.toBitVec_shiftLeft, UInt8.toBitVec_toUInt32, BitVec.getLsbD_setWidth,
      BitVec.getLsbD_and]
    interval_cases i <;> simp

theorem be32_ofBe32 (a b c d : UInt8) :
    be32 (ofBe32 (widen a) (widen b) (widen c) (widen d)) = [a, b, c, d] := by
  simp only [be32, ofBe32, widen_and, byte, List.cons.injEq, and_true]
  refine ⟨?_, ?_, ?_, ?_⟩ <;>
  · apply UInt8.toBitVec_inj.mp
    apply BitVec.eq_of_getLsbD_eq
    intro i hi
    interval_cases i <;> simp

theorem be64_ofBe64 (h l : UInt32) : be64 (ofBe64 h l) = be32 h ++ be32 l := by
  have hh : (ofBe64 h l >>> 32).toUInt32 = h := by
    apply UInt32.toBitVec_inj.mp
    apply BitVec.eq_of_getLsbD_eq
    intro i hi
    interval_cases i <;> simp [ofBe64]
  have hl : (ofBe64 h l).toUInt32 = l := by
    apply UInt32.toBitVec_inj.mp
    apply BitVec.eq_of_getLsbD_eq
    intro i hi
    interval_cases i <;> simp [ofBe64]
  rw [be64, hh, hl]

end Word

end Yfs
