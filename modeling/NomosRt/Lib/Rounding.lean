/-
  NomosRt.Lib.Rounding

  Floating-point arithmetic that rounds: the real numbers of a format, with the result
  of every operation rounded to the format.

  A `Rounding` is a monotone projection that is symmetric in the sign, with a bound on
  its error below 2 and with the tie above 1 going to 1.  `Rounding.exact` rounds
  nothing, and `Rounding.single` is rounding to the nearest value of `binary32`, ties to
  even; results beyond the largest value of `binary32` are not looked at.

  `step_mem` is what the arithmetic of a step towards a target relies on: rounding does
  not lead out of [-1, 1].
-/

import NomosRt.Lib.RealFloat
import Mathlib.Data.Int.Log

namespace NomosRt.Lib

/-- Rounding to a number format; `unit` is the largest error below 2 in size. -/
structure IsRounding (round : ℝ → ℝ) (unit : ℝ) : Prop where
  mono : Monotone round
  idem : ∀ x, round (round x) = round x
  neg : ∀ x, round (-x) = -round x
  small : ∀ k : Nat, k < 4 → round k = k
  unit_nonneg : 0 ≤ unit
  error : ∀ x, |x| ≤ 2 → |round x - x| ≤ unit
  /-- a tie above 1 goes to 1 -/
  one_add : round (1 + unit) = 1

/-- A number format. -/
structure Rounding where
  round : ℝ → ℝ
  unit : ℝ
  ok : IsRounding round unit

namespace Rounding

variable (R : Rounding)

theorem round_zero : R.round 0 = 0 := by
  have h := R.ok.small 0 (by omega)
  rwa [Nat.cast_zero] at h

theorem round_one : R.round 1 = 1 := by
  have h := R.ok.small 1 (by omega)
  rwa [Nat.cast_one] at h

theorem round_neg_one : R.round (-1) = -1 := by
  rw [R.ok.neg, R.round_one]

theorem round_nonneg {x : ℝ} (h : 0 ≤ x) : 0 ≤ R.round x := by
  have hround := R.ok.mono h
  rwa [R.round_zero] at hround

theorem round_nonpos {x : ℝ} (h : x ≤ 0) : R.round x ≤ 0 := by
  have hround := R.ok.mono h
  rwa [R.round_zero] at hround

theorem round_le_one {x : ℝ} (h : x ≤ 1 + R.unit) : R.round x ≤ 1 := by
  rw [← R.ok.one_add]
  exact R.ok.mono h

theorem neg_one_le_round {x : ℝ} (h : -1 - R.unit ≤ x) : -1 ≤ R.round x := by
  have hneg : R.round (-x) ≤ 1 := R.round_le_one (by linarith)
  rw [R.ok.neg] at hneg
  linarith

/-- A step upwards does not overshoot. -/
theorem step_up {x y c : ℝ} (hx : -1 ≤ x) (hy : y ≤ 1) (hc : 0 ≤ c ∧ c ≤ 1) (hxy : x ≤ y) :
    -1 ≤ R.round (x + R.round (R.round (y - x) * c)) ∧
      R.round (x + R.round (R.round (y - x) * c)) ≤ 1 := by
  have hup : 0 ≤ R.round (y - x) := R.round_nonneg (sub_nonneg.mpr hxy)
  have herr := abs_le.mp (R.ok.error (y - x) (abs_le.mpr ⟨by linarith, by linarith⟩))
  have hlow : 0 ≤ R.round (R.round (y - x) * c) := R.round_nonneg (mul_nonneg hup hc.1)
  have hhigh : R.round (R.round (y - x) * c) ≤ R.round (y - x) := by
    have h := R.ok.mono (mul_le_of_le_one_right hup hc.2)
    rwa [R.ok.idem] at h
  have hunit := R.ok.unit_nonneg
  exact ⟨R.neg_one_le_round (by linarith), R.round_le_one (by linarith)⟩

/-- A step of a part `c` of the way towards a target stays in [-1, 1]. -/
theorem step_mem {x y c : ℝ} (hx : -1 ≤ x ∧ x ≤ 1) (hy : -1 ≤ y ∧ y ≤ 1) (hc : 0 ≤ c ∧ c ≤ 1) :
    -1 ≤ R.round (x + R.round (R.round (y - x) * c)) ∧
      R.round (x + R.round (R.round (y - x) * c)) ≤ 1 := by
  rcases le_total x y with hxy | hyx
  · exact R.step_up hx.1 hy.2 hc hxy
  · -- the same step on the other side of zero
    have hup := R.step_up (x := -x) (y := -y) (by linarith) (by linarith) hc (by linarith)
    have hflip : R.round (-x + R.round (R.round (-y - -x) * c)) =
        -R.round (x + R.round (R.round (y - x) * c)) := by
      rw [show -y - -x = -(y - x) by ring, R.ok.neg, neg_mul, R.ok.neg, ← neg_add, R.ok.neg]
    rw [hflip] at hup
    constructor <;> linarith

/-! ## Exact arithmetic -/

theorem isRounding_id : IsRounding id 0 where
  mono := monotone_id
  idem _ := rfl
  neg _ := rfl
  small _ _ := rfl
  unit_nonneg := le_refl 0
  error x _ := by rw [id, sub_self, abs_zero]
  one_add := add_zero 1

/-- Every real number is a value. -/
def exact : Rounding := ⟨id, 0, isRounding_id⟩

end Rounding

/-! ## The nearest integer, ties to even -/

section Even

/-- The nearest integer; halfway between two, the even one. -/
noncomputable def roundEven (x : ℝ) : ℤ :=
  if Int.fract x < 1 - Int.fract x ∨ (Int.fract x = 1 - Int.fract x ∧ Even ⌊x⌋) then ⌊x⌋
  else ⌊x⌋ + 1

theorem roundEven_intCast (n : ℤ) : roundEven n = n := by
  rw [roundEven, if_pos]
  · exact Int.floor_intCast n
  · left
    rw [Int.fract_intCast]
    norm_num

theorem floor_le_roundEven (x : ℝ) : ⌊x⌋ ≤ roundEven x := by
  rw [roundEven]
  split_ifs <;> omega

theorem roundEven_le_floor_add_one (x : ℝ) : roundEven x ≤ ⌊x⌋ + 1 := by
  rw [roundEven]
  split_ifs <;> omega

theorem roundEven_mono : Monotone roundEven := by
  intro x y hxy
  rcases (Int.floor_mono hxy).lt_or_eq with hlt | heq
  · calc roundEven x ≤ ⌊x⌋ + 1 := roundEven_le_floor_add_one x
      _ ≤ ⌊y⌋ := hlt
      _ ≤ roundEven y := floor_le_roundEven y
  · have hfract : Int.fract x ≤ Int.fract y := by
      rw [Int.fract, Int.fract, heq]
      linarith
    by_cases hdown : Int.fract y < 1 - Int.fract y ∨ (Int.fract y = 1 - Int.fract y ∧ Even ⌊y⌋)
    · -- `y` is rounded down, so `x` is
      have hdown' : Int.fract x < 1 - Int.fract x ∨
          (Int.fract x = 1 - Int.fract x ∧ Even ⌊x⌋) := by
        rcases hdown with hlt | ⟨htie, heven⟩
        · exact .inl (by linarith)
        · rcases hfract.lt_or_eq with hlt | heq'
          · exact .inl (by linarith)
          · exact .inr ⟨by rw [heq', ← htie], by rwa [heq]⟩
      rw [roundEven, roundEven, if_pos hdown, if_pos hdown', heq]
    · rw [roundEven, roundEven, if_neg hdown, ← heq]
      split_ifs <;> omega

theorem roundEven_neg (x : ℝ) : roundEven (-x) = -roundEven x := by
  by_cases hint : Int.fract x = 0
  · have hx : x = ⌊x⌋ := by
      have h := Int.self_sub_floor x
      rw [hint] at h
      linarith
    rw [hx, ← Int.cast_neg, roundEven_intCast, roundEven_intCast]
  · have hfract : Int.fract (-x) = 1 - Int.fract x := Int.fract_neg hint
    have hfloor : ⌊-x⌋ = -⌊x⌋ - 1 := by
      have h := Int.self_sub_floor (-x)
      have h' := Int.self_sub_floor x
      have hcast : ((⌊-x⌋ : ℤ) : ℝ) = ((-⌊x⌋ - 1 : ℤ) : ℝ) := by
        push_cast
        linarith
      exact_mod_cast hcast
    have heven : Even ⌊-x⌋ ↔ ¬ Even ⌊x⌋ := by
      rw [hfloor, Int.even_sub_one, even_neg]
    rw [roundEven, roundEven, hfract, hfloor]
    rw [hfloor] at heven
    rcases lt_trichotomy (Int.fract x) (1 / 2) with hlt | heq | hgt
    · rw [if_neg, if_pos (.inl (by linarith))]
      · omega
      · rintro (h | ⟨h, -⟩) <;> linarith
    · by_cases hpar : Even ⌊x⌋
      · rw [if_neg, if_pos (.inr ⟨by linarith, hpar⟩)]
        · omega
        · rintro (h | ⟨-, h⟩)
          · linarith
          · exact heven.mp h hpar
      · rw [if_pos (.inr ⟨by linarith, heven.mpr hpar⟩), if_neg]
        · omega
        · rintro (h | ⟨-, h⟩)
          · linarith
          · exact hpar h
    · rw [if_pos (.inl (by linarith)), if_neg]
      · omega
      · rintro (h | ⟨h, -⟩) <;> linarith

theorem abs_roundEven_sub_le (x : ℝ) : |roundEven x - x| ≤ 1 / 2 := by
  have hsplit := Int.self_sub_floor x
  have hlow := Int.fract_nonneg x
  have hhigh := Int.fract_lt_one x
  rw [roundEven, abs_le]
  split_ifs with h
  · have hle : Int.fract x ≤ 1 / 2 := by
      rcases h with h | ⟨h, -⟩ <;> linarith
    constructor <;> linarith
  · have hge : 1 / 2 ≤ Int.fract x := not_lt.mp fun hlt => h (.inl (by linarith))
    push_cast
    constructor <;> linarith

/-- A tie goes to an even integer below it. -/
theorem roundEven_add_half {n : ℤ} (h : Even n) : roundEven (n + 1 / 2) = n := by
  have hfloor : ⌊(n + 1 / 2 : ℝ)⌋ = n := by
    rw [Int.floor_eq_iff]
    constructor <;> linarith
  have hfract : Int.fract (n + 1 / 2 : ℝ) = 1 / 2 := by
    rw [Int.fract, hfloor]
    ring
  rw [roundEven, hfloor, if_pos (.inr ⟨by rw [hfract]; norm_num, h⟩)]

end Even

/-! ## `binary32` -/

section Single

/-- The exponent of the last place of a value. -/
noncomputable def placeExp (x : ℝ) : ℤ := max (-149) (Int.log 2 |x| - 23)

/-- The last place of a value. -/
noncomputable def place (x : ℝ) : ℝ := (2 : ℕ) ^ placeExp x

/-- Rounding to the nearest value of `binary32`, ties to even. -/
noncomputable def roundSingle (x : ℝ) : ℝ := roundEven (x / place x) * place x

theorem place_eq (x : ℝ) : place x = 2 ^ placeExp x := by rw [place, Nat.cast_ofNat]

theorem place_pos (x : ℝ) : 0 < place x := by
  rw [place_eq]
  exact zpow_pos two_pos _

theorem place_neg (x : ℝ) : place (-x) = place x := by
  rw [place, place, placeExp, placeExp, abs_neg]

theorem roundSingle_neg (x : ℝ) : roundSingle (-x) = -roundSingle x := by
  rw [roundSingle, roundSingle, place_neg, neg_div, roundEven_neg, Int.cast_neg, neg_mul]

/-- What is a multiple of its last place is a value. -/
theorem roundSingle_of_multiple {x : ℝ} {n : ℤ} (h : x = n * place x) : roundSingle x = x := by
  have hdiv : x / place x = n := by
    rw [div_eq_iff (place_pos x).ne']
    exact h
  rw [roundSingle, hdiv, roundEven_intCast]
  exact h.symm

/-- A power of two is a multiple of the smaller ones. -/
theorem zpow_eq_mul_zpow {k e : ℤ} (h : e ≤ k) :
    (2 : ℝ) ^ k = ((2 ^ (k - e).toNat : ℤ) : ℝ) * 2 ^ e := by
  have hnat : (((k - e).toNat : ℕ) : ℤ) = k - e := Int.toNat_of_nonneg (by omega)
  push_cast
  rw [← zpow_natCast, hnat, ← zpow_add₀ two_ne_zero]
  congr 1
  omega

/-- A value has at most 24 binary places. -/
theorem abs_lt_zpow_placeExp (x : ℝ) : |x| < 2 ^ (placeExp x + 24) := by
  have hlog : |x| < 2 ^ (Int.log 2 |x| + 1) := by
    have h := Int.lt_zpow_succ_log_self (R := ℝ) one_lt_two |x|
    exact_mod_cast h
  refine hlog.trans_le (zpow_le_zpow_right₀ one_le_two ?_)
  have hmax := le_max_right (-149) (Int.log 2 |x| - 23)
  rw [placeExp]
  omega

theorem abs_roundEven_le {x : ℝ} {n : ℕ} (h : |x| ≤ n) : |roundEven x| ≤ n := by
  obtain ⟨hlow, hhigh⟩ := abs_le.mp h
  have hup := roundEven_mono hhigh
  have hdown := roundEven_mono hlow
  rw [roundEven_neg] at hdown
  rw [← Int.cast_natCast, roundEven_intCast] at hup hdown
  exact abs_le.mpr ⟨hdown, hup⟩

/-- The last place of a power of two. -/
theorem placeExp_of_abs_eq {x : ℝ} {k : ℤ} (h : |x| = 2 ^ k) (hk : -126 ≤ k) :
    placeExp x = k - 23 := by
  have hlog : Int.log 2 |x| = k := by
    rw [h]
    exact_mod_cast Int.log_zpow (R := ℝ) one_lt_two k
  rw [placeExp, hlog]
  omega

/-- A number of 24 binary places is a value, and so is the next power of two. -/
theorem roundSingle_mul_zpow {m e : ℤ} (hm : |m| ≤ 2 ^ 24) (he : -149 ≤ e) :
    roundSingle (m * 2 ^ e) = m * 2 ^ e := by
  rcases eq_or_ne m 0 with rfl | hm0
  · exact roundSingle_of_multiple (n := 0) (by simp)
  · have hpow : (0 : ℝ) < 2 ^ e := zpow_pos two_pos e
    have habs : |(m * 2 ^ e : ℝ)| = |(m : ℝ)| * 2 ^ e := by
      rw [abs_mul, abs_of_pos hpow]
    have hpos : 0 < |(m * 2 ^ e : ℝ)| := by
      rw [habs]
      exact mul_pos (abs_pos.mpr (by exact_mod_cast hm0)) hpow
    rcases le_or_gt (placeExp (m * 2 ^ e)) e with hle | hgt
    · refine roundSingle_of_multiple (n := m * 2 ^ (e - placeExp (m * 2 ^ e)).toNat) ?_
      rw [Int.cast_mul, mul_assoc, place_eq, ← zpow_eq_mul_zpow hle]
    · -- the size is a power of two, with the last place above
      have hlog : e + 24 ≤ Int.log 2 |(m * 2 ^ e : ℝ)| := by
        rw [placeExp] at hgt
        omega
      have hlow : (2 : ℝ) ^ (e + 24) ≤ |(m * 2 ^ e : ℝ)| :=
        (zpow_le_zpow_right₀ one_le_two hlog).trans
          (by exact_mod_cast Int.zpow_log_le_self one_lt_two hpos)
      have hsplit : (2 : ℝ) ^ (e + 24) = 2 ^ 24 * 2 ^ e := by
        rw [add_comm, zpow_add₀ two_ne_zero]
        norm_num
      have hm' : |m| = 2 ^ 24 := by
        refine le_antisymm hm ?_
        rw [hsplit, habs] at hlow
        have h := le_of_mul_le_mul_right hlow hpow
        exact_mod_cast h
      have hsize : |(m * 2 ^ e : ℝ)| = 2 ^ (e + 24) := by
        rw [habs, hsplit]
        congr 1
        exact_mod_cast hm'
      have hplace : placeExp (m * 2 ^ e) = e + 1 := by
        rw [placeExp_of_abs_eq hsize (by omega)]
        omega
      obtain ⟨n, rfl⟩ : ∃ n, m = n * 2 := by
        rcases (abs_eq (by norm_num)).mp hm' with rfl | rfl
        · exact ⟨2 ^ 23, by norm_num⟩
        · exact ⟨-2 ^ 23, by norm_num⟩
      refine roundSingle_of_multiple (n := n) ?_
      rw [place_eq, hplace, zpow_add_one₀ two_ne_zero]
      push_cast
      ring

theorem roundSingle_idem (x : ℝ) : roundSingle (roundSingle x) = roundSingle x := by
  refine roundSingle_mul_zpow (abs_roundEven_le ?_) (le_max_left _ _)
  have hlt := abs_lt_zpow_placeExp x
  rw [zpow_add₀ two_ne_zero] at hlt
  rw [abs_div, abs_of_pos (place_pos x), div_le_iff₀ (place_pos x), place_eq, mul_comm]
  exact_mod_cast hlt.le

theorem roundSingle_natCast {k : ℕ} (h : k ≤ 2 ^ 24) : roundSingle k = k := by
  have hround := roundSingle_mul_zpow (m := k) (e := 0) (by rw [Nat.abs_cast]; exact_mod_cast h)
    (by norm_num)
  rwa [zpow_zero, mul_one, Int.cast_natCast] at hround

/-- A value between two powers of two is rounded between them. -/
theorem roundSingle_le_zpow {x : ℝ} {k : ℤ} (hk : placeExp x ≤ k) (h : x ≤ 2 ^ k) :
    roundSingle x ≤ 2 ^ k := by
  have hdiv : x / place x ≤ ((2 ^ (k - placeExp x).toNat : ℤ) : ℝ) := by
    rw [div_le_iff₀ (place_pos x), place_eq, ← zpow_eq_mul_zpow hk]
    exact h
  have hround := roundEven_mono hdiv
  rw [roundEven_intCast] at hround
  rw [roundSingle, zpow_eq_mul_zpow hk]
  exact mul_le_mul_of_nonneg_right (by exact_mod_cast hround) (place_pos x).le

theorem zpow_le_roundSingle {x : ℝ} {k : ℤ} (hk : placeExp x ≤ k) (h : 2 ^ k ≤ x) :
    2 ^ k ≤ roundSingle x := by
  have hdiv : ((2 ^ (k - placeExp x).toNat : ℤ) : ℝ) ≤ x / place x := by
    rw [le_div_iff₀ (place_pos x), place_eq, ← zpow_eq_mul_zpow hk]
    exact h
  have hround := roundEven_mono hdiv
  rw [roundEven_intCast] at hround
  rw [roundSingle, zpow_eq_mul_zpow hk]
  exact mul_le_mul_of_nonneg_right (by exact_mod_cast hround) (place_pos x).le

theorem roundSingle_nonneg {x : ℝ} (h : 0 ≤ x) : 0 ≤ roundSingle x := by
  have hround := roundEven_mono (div_nonneg h (place_pos x).le)
  rw [← Int.cast_zero, roundEven_intCast] at hround
  exact mul_nonneg (by exact_mod_cast hround) (place_pos x).le

theorem roundSingle_mono_of_nonneg {x y : ℝ} (hx : 0 ≤ x) (hxy : x ≤ y) :
    roundSingle x ≤ roundSingle y := by
  rcases eq_or_ne (placeExp x) (placeExp y) with heq | hne
  · have hplace : place x = place y := by
      rw [place, place, heq]
    rw [roundSingle, roundSingle, hplace]
    refine mul_le_mul_of_nonneg_right ?_ (place_pos y).le
    exact_mod_cast roundEven_mono (div_le_div_of_nonneg_right hxy (place_pos y).le)
  · -- a power of two lies between the two
    rcases hx.lt_or_eq with hpos | rfl
    · have hposy : 0 < y := hpos.trans_le hxy
      have hlog : Int.log 2 x ≤ Int.log 2 y := Int.log_mono_right hpos hxy
      have hexp : placeExp x < placeExp y ∧ placeExp y = Int.log 2 y - 23 ∧
          Int.log 2 x < Int.log 2 y := by
        rw [placeExp, placeExp, abs_of_pos hpos, abs_of_pos hposy] at hne ⊢
        omega
      have hlow : x ≤ 2 ^ Int.log 2 y := by
        have h := Int.lt_zpow_succ_log_self (R := ℝ) one_lt_two x
        have h' : x < 2 ^ (Int.log 2 x + 1) := by exact_mod_cast h
        exact h'.le.trans (zpow_le_zpow_right₀ one_le_two (by omega))
      have hhigh : (2 : ℝ) ^ Int.log 2 y ≤ y := by
        exact_mod_cast Int.zpow_log_le_self one_lt_two hposy
      exact (roundSingle_le_zpow (by omega) hlow).trans (zpow_le_roundSingle (by omega) hhigh)
    · have hzero := roundSingle_natCast (k := 0) (by norm_num)
      rw [Nat.cast_zero] at hzero
      rw [hzero]
      exact roundSingle_nonneg hxy

theorem roundSingle_mono : Monotone roundSingle := by
  intro x y hxy
  rcases le_total 0 x with hx | hx
  · exact roundSingle_mono_of_nonneg hx hxy
  · have hflip : roundSingle x ≤ 0 := by
      have h := roundSingle_nonneg (neg_nonneg.mpr hx)
      rw [roundSingle_neg] at h
      linarith
    rcases le_total 0 y with hy | hy
    · exact hflip.trans (roundSingle_nonneg hy)
    · have h := roundSingle_mono_of_nonneg (neg_nonneg.mpr hy) (neg_le_neg hxy)
      rw [roundSingle_neg, roundSingle_neg] at h
      linarith

/-- Below 2 the error is half a last place of 1 at most. -/
theorem abs_roundSingle_sub_le {x : ℝ} (h : |x| ≤ 2) : |roundSingle x - x| ≤ 2 ^ (-24 : ℤ) := by
  rcases h.lt_or_eq with hlt | heq
  · have hplace : place x ≤ 2 ^ (-23 : ℤ) := by
      rw [place_eq]
      refine zpow_le_zpow_right₀ one_le_two ?_
      have hlog : Int.log 2 |x| ≤ 0 := by
        rcases (abs_nonneg x).lt_or_eq with hpos | hzero
        · have h := (Int.lt_zpow_iff_log_lt (b := 2) (x := 1) one_lt_two hpos).mp
            (by exact_mod_cast hlt)
          omega
        · rw [← hzero, Int.log_zero_right]
      rw [placeExp]
      omega
    have hround := abs_roundEven_sub_le (x / place x)
    have herr : roundSingle x - x = (roundEven (x / place x) - x / place x) * place x := by
      rw [roundSingle, sub_mul, div_mul_cancel₀ _ (place_pos x).ne']
    rw [herr, abs_mul, abs_of_pos (place_pos x)]
    calc |(roundEven (x / place x) : ℝ) - x / place x| * place x
        ≤ 1 / 2 * 2 ^ (-23 : ℤ) := mul_le_mul hround hplace (place_pos x).le (by norm_num)
      _ = 2 ^ (-24 : ℤ) := by norm_num
  · have hexact : roundSingle x = x := by
      have htwo := roundSingle_natCast (k := 2) (by norm_num)
      rw [Nat.cast_ofNat] at htwo
      rcases (abs_eq two_pos.le).mp heq with rfl | rfl
      · exact htwo
      · rw [roundSingle_neg, htwo]
    rw [hexact, sub_self, abs_zero]
    positivity

/-- The first tie above 1 goes to 1. -/
theorem roundSingle_one_add : roundSingle (1 + 2 ^ (-24 : ℤ)) = 1 := by
  have hplace : place (1 + 2 ^ (-24 : ℤ)) = 2 ^ (-23 : ℤ) := by
    have hpos : (0 : ℝ) < 1 + 2 ^ (-24 : ℤ) := by positivity
    have hlog : Int.log 2 |(1 + 2 ^ (-24 : ℤ) : ℝ)| = 0 := by
      rw [abs_of_pos hpos]
      have hlow := (Int.zpow_le_iff_le_log (b := 2) (x := 0) one_lt_two hpos).mp (by norm_num)
      have hhigh := (Int.lt_zpow_iff_log_lt (b := 2) (x := 1) one_lt_two hpos).mp (by norm_num)
      omega
    rw [place_eq, placeExp, hlog]
    norm_num
  have htie : (1 + 2 ^ (-24 : ℤ)) / 2 ^ (-23 : ℤ) = (((2 : ℤ) ^ 23 : ℤ) : ℝ) + 1 / 2 := by
    norm_num
  rw [roundSingle, hplace, htie, roundEven_add_half (by decide)]
  norm_num

end Single

theorem isRounding_roundSingle : IsRounding roundSingle ((2 : ℕ) ^ (-24 : ℤ)) where
  mono := roundSingle_mono
  idem := roundSingle_idem
  neg := roundSingle_neg
  small k hk := roundSingle_natCast (by omega)
  unit_nonneg := by positivity
  error _ h := by
    rw [Nat.cast_ofNat]
    exact abs_roundSingle_sub_le h
  one_add := by
    rw [Nat.cast_ofNat]
    exact roundSingle_one_add

/-- `binary32`; the unit is half a last place of 1. -/
noncomputable def Rounding.single : Rounding :=
  ⟨roundSingle, (2 : ℕ) ^ (-24 : ℤ), isRounding_roundSingle⟩

/-! ## The numbers of a format -/

/-- A number of the format. -/
@[ext] structure Rounding.Num (R : Rounding) where
  value : ℝ
  rounded : R.round value = value

namespace Rounding

variable {R : Rounding}

/-- The number nearest to a real number. -/
def ofReal (x : ℝ) : R.Num := ⟨R.round x, R.ok.idem x⟩

def Num.neg (a : R.Num) : R.Num := ⟨-a.value, by rw [R.ok.neg, a.rounded]⟩

/-- The arithmetic of the format: real results, rounded. -/
noncomputable instance : CFloat R.Num where
  add a b := ofReal (a.value + b.value)
  sub a b := ofReal (a.value - b.value)
  mul a b := ofReal (a.value * b.value)
  div a b := ofReal (a.value / b.value)
  neg := Num.neg
  lit q := ofReal q
  ofInt n := ofReal n
  abs a := if a.value < 0 then a.neg else a
  floor a := ofReal ⌊a.value⌋
  fmod a b := ofReal (a.value - b.value * truncReal (a.value / b.value))
  sin a := ofReal (Real.sin a.value)
  cos a := ofReal (Real.cos a.value)
  lt a b := decide (a.value < b.value)
  le a b := decide (a.value ≤ b.value)
  toInt a := truncReal a.value
  toInt_lit k hk := by
    show truncReal (R.round ((k : ℚ) : ℝ)) = k
    rw [Rat.cast_natCast, R.ok.small k hk]
    simp [truncReal]

noncomputable instance : CMath R.Num where
  exp a := ofReal (Real.exp a.value)
  log a := ofReal (Real.log a.value)
  pow a b := ofReal (a.value ^ b.value)
  -- halfway cases away from zero
  round a := ofReal (if 0 ≤ a.value then ⌊a.value + (1 / 2 : ℚ)⌋ else ⌈a.value - (1 / 2 : ℚ)⌉)
  lerp a b t := ofReal (a.value + t.value * (b.value - a.value))
  eq a b := decide (a.value = b.value)

@[simp] theorem ofReal_value (x : ℝ) : (ofReal x : R.Num).value = R.round x := rfl

theorem lit_value (q : ℚ) : (CFloat.lit q : R.Num).value = R.round q := rfl

@[simp] theorem add_value (a b : R.Num) : (a + b).value = R.round (a.value + b.value) := rfl

@[simp] theorem sub_value (a b : R.Num) : (a - b).value = R.round (a.value - b.value) := rfl

@[simp] theorem mul_value (a b : R.Num) : (a * b).value = R.round (a.value * b.value) := rfl

@[simp] theorem num_lt {a b : R.Num} : CFloat.lt a b = true ↔ a.value < b.value :=
  decide_eq_true_iff

@[simp] theorem num_le {a b : R.Num} : CFloat.le a b = true ↔ a.value ≤ b.value :=
  decide_eq_true_iff

theorem one_value : (CFloat.lit 1 : R.Num).value = 1 := by
  rw [lit_value, Rat.cast_one, R.round_one]

theorem zero_value : (CFloat.lit 0 : R.Num).value = 0 := by
  rw [lit_value, Rat.cast_zero, R.round_zero]

theorem neg_one_value : (CFloat.lit (-1) : R.Num).value = -1 := by
  rw [lit_value, Rat.cast_neg, Rat.cast_one, R.round_neg_one]

/-- A clamp to [-1, 1]. -/
theorem clamp_one_mem (a : R.Num) :
    -1 ≤ (CFloat.clamp a (CFloat.lit (-1)) (CFloat.lit 1)).value ∧
      (CFloat.clamp a (CFloat.lit (-1)) (CFloat.lit 1)).value ≤ 1 := by
  rw [CFloat.clamp]
  split_ifs with hlow hhigh
  · rw [neg_one_value]
    norm_num
  · rw [one_value]
    norm_num
  · rw [num_lt, neg_one_value, not_lt] at hlow
    rw [num_lt, one_value, not_lt] at hhigh
    exact ⟨hlow, hhigh⟩

/-- A step of a part of the way towards a target. -/
theorem towards_mem {a b c : R.Num} (ha : -1 ≤ a.value ∧ a.value ≤ 1)
    (hb : -1 ≤ b.value ∧ b.value ≤ 1) (hc : 0 ≤ c.value ∧ c.value ≤ 1) :
    -1 ≤ (a + (b - a) * c).value ∧ (a + (b - a) * c).value ≤ 1 :=
  R.step_mem ha hb hc

end Rounding

end NomosRt.Lib
