/-
  NomosRt.Lib.Ring

  Index arithmetic of a power-of-two ring: masking is reduction modulo the
  capacity, and inside one window of the capacity's length an index is
  determined by its residue.
-/

import Mathlib.Data.Int.ModEq
import Mathlib.Data.Nat.Bitwise

namespace NomosRt.Lib

/-- A ring capacity, with the two conditions a power-of-two ring is built on. -/
structure Capacity where
  val : Nat
  pow_two : val &&& (val - 1) = 0
  two_le : 2 ≤ val

namespace Capacity

/-- The index mask. -/
def mask (c : Capacity) : Nat := c.val - 1

theorem pos (c : Capacity) : 0 < c.val := Nat.lt_of_lt_of_le (by decide) c.two_le

/-- Masking with `val - 1` is reduction modulo `val`. -/
theorem and_mask (c : Capacity) (n : Nat) : n &&& c.mask = n % c.val := by
  have hpow : c.val.isPowerOfTwo :=
    Nat.ne_zero_and_sub_one_eq_zero_iff_isPowerOfTwo.mp
      ⟨Nat.pos_iff_ne_zero.mp c.pos, c.pow_two⟩
  obtain ⟨k, hk⟩ := hpow
  rw [mask, hk, Nat.and_two_pow_sub_one_eq_mod]

/-- Stepping a reduced index agrees with reducing the stepped counter. -/
theorem succ_and_mask (c : Capacity) (n : Nat) :
    (n % c.val + 1) &&& c.mask = (n + 1) % c.val := by
  rw [and_mask, Nat.mod_add_mod]

end Capacity

/-- Two counters less than `n` apart with the same residue are equal. -/
theorem mod_eq_of_window {n i j : Nat} (hij : i ≤ j) (hj : j < i + n)
    (h : i % n = j % n) : i = j := by
  obtain ⟨d, rfl⟩ := Nat.exists_eq_add_of_le hij
  have hd : d < n := by omega
  have hdvd : d % n = 0 := by
    have hmod : (i + 0) % n = (i + d) % n := by simpa using h
    exact (Nat.ModEq.add_left_cancel' i hmod).symm
  rw [Nat.mod_eq_of_lt hd] at hdvd
  omega

/-- Distinct counters of one window have distinct residues. -/
theorem mod_ne_of_window {n i j : Nat} (hij : i < j) (hj : j < i + n) :
    i % n ≠ j % n := by
  intro h
  have := mod_eq_of_window (Nat.le_of_lt hij) hj h
  omega

end NomosRt.Lib
