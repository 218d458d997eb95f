/-
  NomosRt.Lib.RealFloat

  Exact arithmetic: the real numbers in the place of both floating types of C.

  Conversions to `int` truncate and do not wrap.  The lemmas bring a definition over
  these interfaces to the real numbers' own operations; tests become propositions.
-/

import NomosRt.Lib.CFloat
import Mathlib.Analysis.SpecialFunctions.Pow.Real
import Mathlib.Analysis.SpecialFunctions.Trigonometric.Basic

namespace NomosRt.Lib

/-- Rounding towards zero. -/
noncomputable def truncReal (x : ℝ) : Int := if 0 ≤ x then ⌊x⌋ else ⌈x⌉

@[reducible] noncomputable def realFloat : CFloat ℝ where
  toAdd := inferInstance
  toSub := inferInstance
  toMul := inferInstance
  toDiv := inferInstance
  toNeg := inferInstance
  lit q := q
  ofInt n := n
  abs x := |x|
  floor x := ⌊x⌋
  fmod x y := x - y * truncReal (x / y)
  sin := Real.sin
  cos := Real.cos
  lt x y := decide (x < y)
  le x y := decide (x ≤ y)
  toInt := truncReal
  toInt_lit k _ := by simp [truncReal]

@[reducible] noncomputable def realMath : CMath ℝ :=
  { realFloat with
    exp := Real.exp
    log := Real.log
    pow := fun x y => x ^ y
    -- halfway cases away from zero
    round := fun x => if 0 ≤ x then ⌊x + (1 / 2 : ℚ)⌋ else ⌈x - (1 / 2 : ℚ)⌉
    lerp := fun a b t => a + t * (b - a)
    eq := fun x y => decide (x = y) }

@[reducible] def realNarrow : CNarrow ℝ ℝ := ⟨id⟩

@[reducible] noncomputable def realTrunc : CTrunc ℝ := ⟨truncReal⟩

section Operations

attribute [local instance] realMath

theorem real_lit (q : ℚ) : (CFloat.lit q : ℝ) = q := rfl

theorem real_lit_zero : (CFloat.lit 0 : ℝ) = 0 := Rat.cast_zero

theorem real_lit_one : (CFloat.lit 1 : ℝ) = 1 := Rat.cast_one

@[simp] theorem real_lt (x y : ℝ) : CFloat.lt x y = true ↔ x < y := decide_eq_true_iff

@[simp] theorem real_le (x y : ℝ) : CFloat.le x y = true ↔ x ≤ y := decide_eq_true_iff

theorem real_le_zero {x : ℝ} : CFloat.le x (CFloat.lit 0) = true ↔ x ≤ 0 := by
  rw [real_le, real_lit_zero]

/-- A clamp between literals. -/
theorem clamp_mem (x : ℝ) {lo hi : ℚ} (h : lo ≤ hi) :
    lo ≤ CFloat.clamp x (CFloat.lit lo) (CFloat.lit hi) ∧
      CFloat.clamp x (CFloat.lit lo) (CFloat.lit hi) ≤ hi := by
  have hcast : (lo : ℝ) ≤ hi := Rat.cast_le.mpr h
  rw [CFloat.clamp]
  simp only [real_lt, real_lit]
  split_ifs <;> constructor <;> linarith

/-- The remainder of a nonnegative value lies below the divisor. -/
theorem fmod_mem {x y : ℝ} (hx : 0 ≤ x) (hy : 0 < y) :
    0 ≤ CFloat.fmod x y ∧ CFloat.fmod x y < y := by
  have hfmod : CFloat.fmod x y = x - y * ⌊x / y⌋ := by
    show x - y * truncReal (x / y) = x - y * ⌊x / y⌋
    rw [truncReal, if_pos (div_nonneg hx hy.le)]
  have hlow : y * ⌊x / y⌋ ≤ x := by
    rw [← le_div_iff₀' hy]
    exact Int.floor_le _
  have hhigh : x < y * (⌊x / y⌋ + 1) := by
    rw [← div_lt_iff₀' hy]
    exact Int.lt_floor_add_one _
  rw [hfmod]
  constructor <;> linarith

end Operations

end NomosRt.Lib
