/-
  NomosRt.Lib.Words

  32-bit words as bytes: the little-endian memory image, the big-endian wire
  image, the byte swap between them, and the masked-shift spellings of the swap
  and of the big-endian split that byte-level code uses.
-/

import Mathlib.Tactic.IntervalCases
import Mathlib.Data.Nat.Bitwise

namespace NomosRt.Lib

/-- A byte. -/
abbrev Byte := BitVec 8

/-- Byte `k` of a word, byte 0 least significant. -/
def byteOf (v : BitVec 32) (k : Nat) : Byte := (v >>> (8 * k)).setWidth 8

/-- The word with the given bytes, `b0` least significant: what `memcpy` of four
    bytes reads on a little-endian host. -/
def wordOf (b0 b1 b2 b3 : Byte) : BitVec 32 :=
  b0.setWidth 32 ||| (b1.setWidth 32 <<< 8) ||| (b2.setWidth 32 <<< 16) |||
    (b3.setWidth 32 <<< 24)

/-- The little-endian memory image of a word. -/
def leBytes (v : BitVec 32) : List Byte := [byteOf v 0, byteOf v 1, byteOf v 2, byteOf v 3]

/-- The big-endian image of a word. -/
def beBytes (v : BitVec 32) : List Byte := [byteOf v 3, byteOf v 2, byteOf v 1, byteOf v 0]

/-- `__builtin_bswap32`. -/
def bswap32 (v : BitVec 32) : BitVec 32 :=
  wordOf (byteOf v 3) (byteOf v 2) (byteOf v 1) (byteOf v 0)

/-- The swap written with masks and shifts. -/
def swapMasked (v : BitVec 32) : BitVec 32 :=
  ((v &&& 0xFF000000#32) >>> 24) ||| ((v &&& 0x00FF0000#32) >>> 8) |||
    ((v &&& 0x0000FF00#32) <<< 8) ||| ((v &&& 0x000000FF#32) <<< 24)

@[simp] theorem length_beBytes (v : BitVec 32) : (beBytes v).length = 4 := rfl

/-- The bits of a word, byte by byte. -/
theorem getLsbD_wordOf (b0 b1 b2 b3 : Byte) {i : Nat} (hi : i < 32) :
    (wordOf b0 b1 b2 b3).getLsbD i =
      if i < 8 then b0.getLsbD i else if i < 16 then b1.getLsbD (i - 8)
      else if i < 24 then b2.getLsbD (i - 16) else b3.getLsbD (i - 24) := by
  unfold wordOf
  simp only [BitVec.getLsbD_or, BitVec.getLsbD_shiftLeft, BitVec.getLsbD_setWidth]
  grind

theorem getLsbD_byteOf (v : BitVec 32) (k : Nat) {i : Nat} (hi : i < 8) :
    (byteOf v k).getLsbD i = v.getLsbD (8 * k + i) := by
  simp [byteOf, hi]

theorem byteOf_wordOf (b0 b1 b2 b3 : Byte) :
    byteOf (wordOf b0 b1 b2 b3) 0 = b0 ∧ byteOf (wordOf b0 b1 b2 b3) 1 = b1 ∧
      byteOf (wordOf b0 b1 b2 b3) 2 = b2 ∧ byteOf (wordOf b0 b1 b2 b3) 3 = b3 := by
  refine ⟨?_, ?_, ?_, ?_⟩
  all_goals
    apply BitVec.eq_of_getLsbD_eq
    intro i hi
    rw [getLsbD_byteOf _ _ hi, getLsbD_wordOf _ _ _ _ (by omega)]
    grind

/-- A word is put back together from its bytes. -/
theorem wordOf_byteOf (v : BitVec 32) :
    wordOf (byteOf v 0) (byteOf v 1) (byteOf v 2) (byteOf v 3) = v := by
  apply BitVec.eq_of_getLsbD_eq
  intro i hi
  rw [getLsbD_wordOf _ _ _ _ hi]
  -- which of the four bytes bit `i` is in
  grind [getLsbD_byteOf]

/-- Swapping twice is the identity. -/
theorem bswap32_bswap32 (v : BitVec 32) : bswap32 (bswap32 v) = v := by
  have h := byteOf_wordOf (byteOf v 3) (byteOf v 2) (byteOf v 1) (byteOf v 0)
  obtain ⟨h0, h1, h2, h3⟩ := h
  rw [bswap32, bswap32, h0, h1, h2, h3]
  exact wordOf_byteOf v

/-- The masked spelling of the swap is the swap. -/
theorem swapMasked_eq (v : BitVec 32) : swapMasked v = bswap32 v := by
  unfold swapMasked bswap32 wordOf byteOf
  apply BitVec.eq_of_getLsbD_eq
  intro i hi
  interval_cases i <;> simp

/-- Reading the big-endian image little-endian and swapping gives the word back. -/
theorem bswap32_wordOf_be (v : BitVec 32) :
    bswap32 (wordOf (byteOf v 3) (byteOf v 2) (byteOf v 1) (byteOf v 0)) = v :=
  bswap32_bswap32 v

/-- What a test of all 256 values shows holds of every byte. -/
theorem byte_forall {P : Byte → Prop} (h : ∀ n < 256, P (BitVec.ofNat 8 n)) (b : Byte) : P b := by
  have hb := h b.toNat b.isLt
  rwa [BitVec.ofNat_toNat, BitVec.setWidth_eq] at hb

end NomosRt.Lib
