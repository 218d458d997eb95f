/-
  NomosRt.Lib.CFloat

  The floating-point types of C, as interfaces.

  Programs are modelled over any type with the operations they use; nothing is
  assumed of rounding, NaN or the order, so a result holds for IEEE arithmetic as
  for any other.  The one law kept is that small integer literals are exact; where a
  program relies on more, it is on results that need no rounding.
-/

import Mathlib.Data.Rat.Floor

namespace NomosRt.Lib

/-- `double`: conversion from integers, arithmetic, and conversion to and from a
    `float` given by its bits. -/
class CDouble (D : Type*) where
  ofInt : Int → D
  add : D → D → D
  div : D → D → D
  ofFloatBits : BitVec 32 → D
  toFloatBits : D → BitVec 32

/-- `float` with the functions of `<cmath>` used on it. -/
class CFloat (F : Type*) extends Add F, Sub F, Mul F, Div F, Neg F where
  /-- A decimal literal. -/
  lit : ℚ → F
  /-- Conversion from an integer. -/
  ofInt : Int → F
  abs : F → F
  floor : F → F
  fmod : F → F → F
  sin : F → F
  cos : F → F
  lt : F → F → Bool
  le : F → F → Bool
  /-- `static_cast<int>`. -/
  toInt : F → Int
  toInt_lit : ∀ k : Nat, k < 4 → toInt (lit k) = k

/-- More of `<cmath>`, and equality. -/
class CMath (F : Type*) extends CFloat F where
  exp : F → F
  log : F → F
  pow : F → F → F
  round : F → F
  lerp : F → F → F → F
  eq : F → F → Bool

/-- What a conversion to an integer type takes of a value: the value without its
    fraction, and nothing of an infinity or a NaN. -/
class CTruncated (X : Type*) where
  truncated : X → Option Int

/-- Conversion from `double` to `float`. -/
class CNarrow (D F : Type*) where
  narrow : D → F

/-- `static_cast<int>` on a `double`. -/
class CTrunc (D : Type*) where
  trunc : D → Int

namespace CFloat

variable {F : Type*} [CFloat F]

/-- `std::min`. -/
def min (a b : F) : F := if lt b a then b else a

/-- `std::max`. -/
def max (a b : F) : F := if lt a b then b else a

/-- `std::clamp`. -/
def clamp (v lo hi : F) : F := if lt v lo then lo else if lt hi v then hi else v

end CFloat

/-! ## Exact results -/

/-- The finite values of `binary32`. -/
def IsSingle (q : ℚ) : Prop :=
  ∃ m e : ℤ, |m| < 2 ^ 24 ∧ -149 ≤ e ∧ e ≤ 104 ∧ q = m * 2 ^ e

theorem isSingle_natCast {k : Nat} (hk : k < 2 ^ 24) : IsSingle k :=
  ⟨k, 0, by rw [abs_of_nonneg (by omega)]; exact_mod_cast hk, by decide, by decide, by simp⟩

theorem isSingle_natCast_div {k e : Nat} (hk : k < 2 ^ 24) (he : e ≤ 149) :
    IsSingle (k / 2 ^ e) := by
  refine ⟨k, -e, ?_, by omega, by omega, ?_⟩
  · rw [abs_of_nonneg (by omega)]
    exact_mod_cast hk
  · rw [zpow_neg, zpow_natCast, div_eq_mul_inv, Int.cast_natCast]

theorem isSingle_two_pow {e : Nat} (he : e ≤ 104) : IsSingle (2 ^ e) :=
  ⟨1, e, by decide, by omega, by omega, by simp⟩

/-- What IEEE 754 says of `binary32` where no rounding takes place.  Zero is only
    taken with the sign of its literal. -/
class SingleExact (F : Type*) [CFloat F] : Prop where
  ofInt_eq : ∀ n : Int, IsSingle n → CFloat.ofInt n = (CFloat.lit n : F)
  mul_eq : ∀ a b : ℚ, 0 ≤ a → 0 ≤ b → IsSingle a → IsSingle b → IsSingle (a * b) →
    CFloat.lit a * CFloat.lit b = (CFloat.lit (a * b) : F)
  div_eq : ∀ a b : ℚ, 0 ≤ a → 0 < b → IsSingle a → IsSingle b → IsSingle (a / b) →
    CFloat.lit a / CFloat.lit b = (CFloat.lit (a / b) : F)
  lt_eq : ∀ a b : ℚ, IsSingle a → IsSingle b →
    CFloat.lt (CFloat.lit a : F) (CFloat.lit b) = decide (a < b)

/-- What IEEE 754 says of the order of `binary32`, of doubling, and of differences that need no
    rounding.  A comparison with a NaN is false. -/
class SingleOrder (F : Type*) [CFloat F] : Prop extends SingleExact F where
  le_eq : ∀ a b : ℚ, IsSingle a → IsSingle b →
    CFloat.le (CFloat.lit a : F) (CFloat.lit b) = decide (a ≤ b)
  le_of_lt : ∀ a b : F, CFloat.lt a b = true → CFloat.le a b = true
  lt_of_lt_of_le : ∀ a b c : F, CFloat.lt a b = true → CFloat.le b c = true → CFloat.lt a c = true
  le_double : ∀ (q : ℚ) (x : F), IsSingle q → CFloat.le (CFloat.lit q) x = true →
    CFloat.le (CFloat.lit (q * 2)) (x * CFloat.lit 2) = true
  sub_eq : ∀ a b : ℚ, b < a → IsSingle a → IsSingle b → IsSingle (a - b) →
    CFloat.lit a - CFloat.lit b = (CFloat.lit (a - b) : F)

/-- What IEEE 754 says of the integers up to 2²⁴: both types hold them exactly, and
    conversion to `int` gives them back. -/
class SmallIntExact (D F : Type*) [CDouble D] [CFloat F] [CNarrow D F] [CTrunc D] : Prop where
  narrow_ofInt : ∀ n : Int, |n| ≤ 2 ^ 24 → CNarrow.narrow (CDouble.ofInt n : D) = (CFloat.ofInt n : F)
  trunc_ofInt : ∀ n : Int, |n| ≤ 2 ^ 24 → CTrunc.trunc (CDouble.ofInt n : D) = n
  ofInt_zero : CFloat.ofInt 0 = (CFloat.lit 0 : F)

/-! ## Defined results -/

/-- The truncation of a value that `static_cast<int>` is defined for. -/
def FitsInt (n : Option Int) : Prop := ∃ k : Int, n = some k ∧ -2 ^ 31 ≤ k ∧ k < 2 ^ 31

/-- What IEEE 754 says of literals: rounding keeps their order, and small integers are exact. -/
class LiteralExact (F : Type*) [CMath F] [CTruncated F] : Prop where
  lit_le : ∀ a b : ℚ, a ≤ b → CFloat.le (CFloat.lit a : F) (CFloat.lit b) = true
  truncated_lit : ∀ k : Nat, k ≤ 16 → CTruncated.truncated (CFloat.lit k : F) = some (k : Int)
  round_lit : ∀ k : Nat, k ≤ 16 → CMath.round (CFloat.lit k : F) = CFloat.lit k

end NomosRt.Lib
