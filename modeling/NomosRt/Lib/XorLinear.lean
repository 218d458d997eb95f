/-
  NomosRt.Lib.XorLinear

  Maps on words that are linear over exclusive or: their matrices, fast powers, and
  a criterion for a map to run through all its words in one cycle.

  A matrix is the list of its columns, the images of the single bits.  Squaring it
  works on all columns at once: they are packed side by side into one number, the
  lowest bits of all columns are cut out with one mask, and multiplying the result
  by a column places that column wherever the bit was set.  So the power of a map
  at an exponent of 32 bits is a matter of a thousand operations on numbers, and
  the order of a map is checked by evaluating its powers at the quotients of the
  order by its prime factors.
-/

import Mathlib.Data.Nat.Bitwise
import Mathlib.Dynamics.PeriodicPts.Lemmas
import Mathlib.Data.Nat.ModEq

namespace NomosRt.Lib

open Function

/-! ## Words side by side -/

/-- Exclusive or works on the low and the high part apart. -/
theorem xor_add_two_pow {w a b : Nat} (ha : a < 2 ^ w) (hb : b < 2 ^ w) (p q : Nat) :
    (a + 2 ^ w * p) ^^^ (b + 2 ^ w * q) = (a ^^^ b) + 2 ^ w * (p ^^^ q) := by
  apply Nat.eq_of_testBit_eq
  intro i
  rw [Nat.testBit_xor, Nat.add_comm a, Nat.add_comm b, Nat.add_comm (a ^^^ b),
    Nat.testBit_two_pow_mul_add _ ha, Nat.testBit_two_pow_mul_add _ hb,
    Nat.testBit_two_pow_mul_add _ (Nat.xor_lt_two_pow ha hb)]
  split
  · rw [Nat.testBit_xor]
  · rw [Nat.testBit_xor]

/-- So does the conjunction. -/
theorem and_add_two_pow {w a b : Nat} (ha : a < 2 ^ w) (hb : b < 2 ^ w) (p q : Nat) :
    (a + 2 ^ w * p) &&& (b + 2 ^ w * q) = (a &&& b) + 2 ^ w * (p &&& q) := by
  apply Nat.eq_of_testBit_eq
  intro i
  rw [Nat.testBit_and, Nat.add_comm a, Nat.add_comm b, Nat.add_comm (a &&& b),
    Nat.testBit_two_pow_mul_add _ ha, Nat.testBit_two_pow_mul_add _ hb,
    Nat.testBit_two_pow_mul_add _ (Nat.and_lt_two_pow a hb)]
  split
  · rw [Nat.testBit_and]
  · rw [Nat.testBit_and]

theorem two_mul_xor (a b : Nat) : 2 * (a ^^^ b) = 2 * a ^^^ 2 * b := by
  have h := xor_add_two_pow (w := 1) (a := 0) (b := 0) (by decide) (by decide) a b
  simpa using h.symm

theorem eq_bit_xor (v : Nat) : v = v % 2 ^^^ 2 * (v / 2) := by
  have h := xor_add_two_pow (w := 1) (Nat.mod_lt v Nat.two_pos) Nat.two_pos 0 (v / 2)
  simp only [Nat.mul_zero, Nat.add_zero, Nat.zero_add, Nat.xor_zero, Nat.zero_xor, pow_one] at h
  rw [h]
  exact (Nat.mod_add_div v 2).symm

/-! ## Parity -/

/-- The exclusive or of the `m` lowest bits. -/
def parity : Nat → Nat → Bool
  | 0, _ => false
  | m + 1, x => xor (parity m x) (x.testBit m)

theorem parity_xor (m x y : Nat) : parity m (x ^^^ y) = xor (parity m x) (parity m y) := by
  induction m with
  | zero => rfl
  | succ m ih =>
      rw [parity, parity, parity, ih, Nat.testBit_xor]
      cases parity m x <;> cases parity m y <;> cases x.testBit m <;> cases y.testBit m <;> rfl

theorem parity_add (k m x : Nat) : parity (k + m) x = xor (parity k x) (parity m (x >>> k)) := by
  induction m with
  | zero => exact (Bool.xor_false _).symm
  | succ m ih => rw [← Nat.add_assoc, parity, parity, ih, Nat.testBit_shiftRight, Bool.xor_assoc]

/-- Folding the upper half onto the lower one keeps the parity. -/
theorem parity_fold (k x : Nat) : parity k (x ^^^ (x >>> k)) = parity (k + k) x := by
  rw [parity_xor, parity_add]

/-! ## Matrices -/

/-- The exclusive or of the columns at the bits of `v`. -/
def applyCols : List Nat → Nat → Nat
  | [], _ => 0
  | c :: cs, v => (v % 2 * c) ^^^ applyCols cs (v / 2)

theorem xor_mod_two_mul (a b c : Nat) : (a ^^^ b) % 2 * c = (a % 2 * c) ^^^ (b % 2 * c) := by
  rw [Nat.xor_mod_two_eq]
  rcases Nat.mod_two_eq_zero_or_one a with ha | ha <;>
    rcases Nat.mod_two_eq_zero_or_one b with hb | hb <;>
    simp [Nat.add_mod, ha, hb]

theorem applyCols_xor (cols : List Nat) (a b : Nat) :
    applyCols cols (a ^^^ b) = applyCols cols a ^^^ applyCols cols b := by
  induction cols generalizing a b with
  | nil => exact (Nat.xor_self 0).symm
  | cons c cs ih =>
      rw [applyCols, applyCols, applyCols, xor_mod_two_mul, Nat.xor_div_two, ih]
      ac_rfl

theorem applyCols_zero (cols : List Nat) : applyCols cols 0 = 0 := by
  induction cols with
  | nil => rfl
  | cons c cs ih => rw [applyCols, Nat.zero_mod, Nat.zero_mul, Nat.zero_div, ih]; rfl

theorem applyCols_bit (cols : List Nat) (v c : Nat) :
    applyCols cols (v % 2 * c) = v % 2 * applyCols cols c := by
  rcases Nat.mod_two_eq_zero_or_one v with h | h
  · rw [h, Nat.zero_mul, Nat.zero_mul, applyCols_zero]
  · rw [h, Nat.one_mul, Nat.one_mul]

/-- Applying one matrix to the columns of another composes them. -/
theorem applyCols_map (cols cs : List Nat) (v : Nat) :
    applyCols (cs.map (applyCols cols)) v = applyCols cols (applyCols cs v) := by
  induction cs generalizing v with
  | nil => exact (applyCols_zero cols).symm
  | cons c cs ih =>
      rw [List.map_cons, applyCols, applyCols, ih, applyCols_xor, applyCols_bit]

/-- The columns of a map on words of `n` bits. -/
def columns (f : Nat → Nat) (n : Nat) : List Nat := (List.range n).map fun i => f (2 ^ i)

theorem columns_succ (f : Nat → Nat) (n : Nat) :
    columns f (n + 1) = f 1 :: columns (fun v => f (2 * v)) n := by
  rw [columns, columns, List.range_succ_eq_map, List.map_cons, List.map_map]
  congr 1
  apply List.map_congr_left
  intro i _
  show f (2 ^ (i + 1)) = f (2 * 2 ^ i)
  rw [pow_succ, Nat.mul_comm]

/-- A linear map is given by its columns. -/
theorem eq_applyCols {f : Nat → Nat} (hf : ∀ a b, f (a ^^^ b) = f a ^^^ f b) {n v : Nat}
    (hv : v < 2 ^ n) : f v = applyCols (columns f n) v := by
  have hzero : f 0 = 0 := by
    have h := hf 0 0
    rwa [Nat.xor_self, Nat.xor_self] at h
  induction n generalizing f v with
  | zero =>
      obtain rfl : v = 0 := by omega
      exact hzero
  | succ n ih =>
      have hlow : f (v % 2) = v % 2 * f 1 := by
        rcases Nat.mod_two_eq_zero_or_one v with h | h
        · rw [h, hzero, Nat.zero_mul]
        · rw [h, Nat.one_mul]
      -- the induction is on the width: the columns behind the first are those of doubling
      have hdouble : ∀ a b, f (2 * (a ^^^ b)) = f (2 * a) ^^^ f (2 * b) := by
        intro a b
        rw [two_mul_xor, hf]
      have hrest := ih (f := fun v => f (2 * v)) hdouble (v := v / 2) (by omega) hzero
      rw [columns_succ, applyCols, ← hrest, ← hlow, ← hf, ← eq_bit_xor]

/-! ## Squaring on packed columns -/

/-- The columns side by side in lanes of `w` bits. -/
def pack (w : Nat) : List Nat → Nat
  | [] => 0
  | c :: cs => c + 2 ^ w * pack w cs

/-- The lanes of a packed number. -/
def unpack (w : Nat) : Nat → Nat → List Nat
  | 0, _ => []
  | n + 1, x => x % 2 ^ w :: unpack w n (x / 2 ^ w)

/-- A one in every lane. -/
def laneOnes (w : Nat) : Nat → Nat
  | 0 => 0
  | n + 1 => 1 + 2 ^ w * laneOnes w n

/-- `applyCols cs` in all lanes of `x` at once. -/
def packedApply (ones : Nat) : List Nat → Nat → Nat
  | [], _ => 0
  | c :: cs, x => ((x &&& ones) * c) ^^^ packedApply ones cs ((x - (x &&& ones)) / 2)

/-- The matrix with every column mapped by the matrix itself. -/
def squareCols (w : Nat) (cols : List Nat) : List Nat :=
  unpack w cols.length (packedApply (laneOnes w cols.length) cols (pack w cols))

theorem unpack_pack {w : Nat} {xs : List Nat} (hxs : ∀ x ∈ xs, x < 2 ^ w) :
    unpack w xs.length (pack w xs) = xs := by
  induction xs with
  | nil => rfl
  | cons x xs ih =>
      rw [List.forall_mem_cons] at hxs
      rw [List.length_cons, pack, unpack, Nat.add_mul_mod_self_left, Nat.mod_eq_of_lt hxs.1,
        Nat.add_mul_div_left _ _ (Nat.two_pow_pos w), Nat.div_eq_of_lt hxs.1, Nat.zero_add,
        ih hxs.2]

/-- The lowest bits of all lanes. -/
theorem pack_and_ones {w : Nat} (hw : 0 < w) {xs : List Nat} (hxs : ∀ x ∈ xs, x < 2 ^ w) :
    pack w xs &&& laneOnes w xs.length = pack w (xs.map (· % 2)) := by
  induction xs with
  | nil => exact Nat.zero_and 0
  | cons x xs ih =>
      rw [List.forall_mem_cons] at hxs
      have hone : 1 < 2 ^ w := Nat.one_lt_two_pow (by omega)
      rw [List.length_cons, List.map_cons, pack, pack, laneOnes, and_add_two_pow hxs.1 hone,
        ih hxs.2, Nat.and_one_is_mod]

theorem pack_mul (w : Nat) (xs : List Nat) (c : Nat) :
    pack w xs * c = pack w (xs.map (· * c)) := by
  induction xs with
  | nil => exact Nat.zero_mul c
  | cons x xs ih => rw [List.map_cons, pack, pack, ← ih, Nat.add_mul, Nat.mul_assoc]

/-- Without their lowest bits the lanes halve. -/
theorem pack_halve (w : Nat) (xs : List Nat) :
    pack w xs = pack w (xs.map (· % 2)) + 2 * pack w (xs.map (· / 2)) := by
  induction xs with
  | nil => rfl
  | cons x xs ih =>
      rw [List.map_cons, List.map_cons, pack, pack, pack, ih]
      -- the two products with 2 ^ w must be the same atom for linear arithmetic
      have hx := Nat.mod_add_div x 2
      rw [Nat.mul_add, Nat.mul_add, ← Nat.mul_assoc, Nat.mul_comm (2 ^ w) 2, Nat.mul_assoc]
      omega

theorem pack_xor {w : Nat} {xs : List Nat} {f g : Nat → Nat} (hf : ∀ x ∈ xs, f x < 2 ^ w)
    (hg : ∀ x ∈ xs, g x < 2 ^ w) :
    pack w (xs.map f) ^^^ pack w (xs.map g) = pack w (xs.map fun x => f x ^^^ g x) := by
  induction xs with
  | nil => exact Nat.zero_xor 0
  | cons x xs ih =>
      rw [List.forall_mem_cons] at hf hg
      rw [List.map_cons, List.map_cons, List.map_cons, pack, pack, pack,
        xor_add_two_pow hf.1 hg.1, ih hf.2 hg.2]

theorem applyCols_lt {w : Nat} {cs : List Nat} (hcs : ∀ c ∈ cs, c < 2 ^ w) (v : Nat) :
    applyCols cs v < 2 ^ w := by
  induction cs generalizing v with
  | nil => exact Nat.two_pow_pos w
  | cons c cs ih =>
      rw [List.forall_mem_cons] at hcs
      apply Nat.xor_lt_two_pow
      · rcases Nat.mod_two_eq_zero_or_one v with h | h
        · rw [h, Nat.zero_mul]
          exact Nat.two_pow_pos w
        · rw [h, Nat.one_mul]
          exact hcs.1
      · exact ih hcs.2 (v / 2)

/-- All lanes are mapped at once. -/
theorem packedApply_pack {w : Nat} (hw : 0 < w) {cs xs : List Nat} (hcs : ∀ c ∈ cs, c < 2 ^ w)
    (hxs : ∀ x ∈ xs, x < 2 ^ w) :
    packedApply (laneOnes w xs.length) cs (pack w xs) = pack w (xs.map (applyCols cs)) := by
  induction cs generalizing xs with
  | nil =>
      induction xs with
      | nil => rfl
      | cons x xs ih =>
          rw [List.forall_mem_cons] at hxs
          have hrest : pack w (xs.map (applyCols [])) = 0 := (ih hxs.2).symm
          show 0 = applyCols [] x + 2 ^ w * pack w (xs.map (applyCols []))
          rw [hrest]
          rfl
  | cons c cs ih =>
      rw [List.forall_mem_cons] at hcs
      -- halving all lanes at once is one shift, as no lane has its lowest bit set
      have hhalf : (pack w xs - pack w (xs.map (· % 2))) / 2 = pack w (xs.map (· / 2)) := by
        have h := pack_halve w xs
        omega
      have hhalves : ∀ x ∈ xs.map (· / 2), x < 2 ^ w := by
        intro y hy
        obtain ⟨x, hx, rfl⟩ := List.mem_map.mp hy
        have := hxs x hx
        omega
      have hrest := ih hcs.2 hhalves
      rw [List.length_map, List.map_map] at hrest
      rw [packedApply, pack_and_ones hw hxs, hhalf, hrest, pack_mul, List.map_map, pack_xor]
      · rfl
      · intro x _
        rcases Nat.mod_two_eq_zero_or_one x with h | h
        · simp [h]
        · simpa [h] using hcs.1
      · intro x _
        exact applyCols_lt hcs.2 (x / 2)

theorem squareCols_eq {w : Nat} (hw : 0 < w) {cols : List Nat} (hcols : ∀ c ∈ cols, c < 2 ^ w) :
    squareCols w cols = cols.map (applyCols cols) := by
  have hmapped : ∀ c ∈ cols.map (applyCols cols), c < 2 ^ w := by
    intro c hc
    obtain ⟨x, -, rfl⟩ := List.mem_map.mp hc
    exact applyCols_lt hcols x
  have h := unpack_pack hmapped
  rw [List.length_map] at h
  rw [squareCols, packedApply_pack hw hcols hcols, h]

/-! ## Powers -/

/-- For each exponent and word, the word mapped that often; exponents have at most
    as many bits as there are rounds. -/
def powersAt (w : Nat) : Nat → List Nat → List (Nat × Nat) → List Nat
  | 0, _, ps => ps.map Prod.snd
  | n + 1, cols, ps =>
      powersAt w n (squareCols w cols)
        (ps.map fun p => (p.1 / 2, if p.1 % 2 = 1 then applyCols cols p.2 else p.2))

/-- `f` maps words of `w` bits to words of `w` bits, with the given columns. -/
structure HasCols (w : Nat) (f : Nat → Nat) (cols : List Nat) : Prop where
  eq : ∀ v < 2 ^ w, f v = applyCols cols v
  lt : ∀ c ∈ cols, c < 2 ^ w

theorem HasCols.map_lt {w : Nat} {f : Nat → Nat} {cols : List Nat} (h : HasCols w f cols) {v : Nat}
    (hv : v < 2 ^ w) : f v < 2 ^ w := by
  rw [h.eq v hv]
  exact applyCols_lt h.lt v

theorem HasCols.square {w : Nat} (hw : 0 < w) {f : Nat → Nat} {cols : List Nat}
    (h : HasCols w f cols) : HasCols w (f ∘ f) (squareCols w cols) := by
  rw [squareCols_eq hw h.lt]
  constructor
  · intro v hv
    rw [comp_apply, h.eq (f v) (h.map_lt hv), h.eq v hv, applyCols_map]
  · intro c hc
    obtain ⟨x, -, rfl⟩ := List.mem_map.mp hc
    exact applyCols_lt h.lt x

theorem powersAt_eq {w n : Nat} (hw : 0 < w) {f : Nat → Nat} {cols : List Nat}
    (h : HasCols w f cols) {ps : List (Nat × Nat)} (hps : ∀ p ∈ ps, p.1 < 2 ^ n ∧ p.2 < 2 ^ w) :
    powersAt w n cols ps = ps.map fun p => f^[p.1] p.2 := by
  induction n generalizing f cols ps with
  | zero =>
      apply List.map_congr_left
      intro p hp
      have hzero : p.1 = 0 := Nat.lt_one_iff.mp (hps p hp).1
      rw [hzero]
      rfl
  | succ n ih =>
      rw [powersAt, ih (h.square hw), List.map_map]
      · apply List.map_congr_left
        intro p hp
        -- the odd step first, then the halved exponent on the square
        show (f ∘ f)^[p.1 / 2] (if p.1 % 2 = 1 then applyCols cols p.2 else p.2) = f^[p.1] p.2
        have hsquare : (f ∘ f)^[p.1 / 2] = f^[2 * (p.1 / 2)] := by
          rw [iterate_mul]
          rfl
        rw [hsquare]
        split
        · next hodd =>
          rw [← h.eq p.2 (hps p hp).2, ← iterate_succ_apply]
          congr 1
          omega
        · next heven =>
          congr 1
          omega
      · intro q hq
        obtain ⟨p, hp, rfl⟩ := List.mem_map.mp hq
        obtain ⟨he, hv⟩ := hps p hp
        refine ⟨by rw [pow_succ] at he; show p.1 / 2 < 2 ^ n; omega, ?_⟩
        show (if p.1 % 2 = 1 then applyCols cols p.2 else p.2) < 2 ^ w
        split
        · exact applyCols_lt h.lt p.2
        · exact hv

/-! ## One cycle -/

section Cycle

variable {α : Type*} {f : α → α} {x : α}

/-- A period is the least one when no quotient of it by a prime is a period. -/
theorem minimalPeriod_eq_of_prime {n : Nat} (hper : IsPeriodicPt f n x)
    (hprime : ∀ p, p.Prime → p ∣ n → ¬ IsPeriodicPt f (n / p) x) : minimalPeriod f x = n := by
  obtain ⟨k, hk⟩ := hper.minimalPeriod_dvd
  by_contra hne
  have hk1 : k ≠ 1 := by
    rintro rfl
    exact hne (by rw [hk, Nat.mul_one])
  -- otherwise a prime divides the quotient and can be left out of the period
  obtain ⟨p, hp, hpk⟩ := Nat.exists_prime_and_dvd hk1
  obtain ⟨j, rfl⟩ := hpk
  apply hprime p hp ⟨minimalPeriod f x * j, by rw [hk]; ac_rfl⟩
  have hquot : n / p = minimalPeriod f x * j :=
    Nat.div_eq_of_eq_mul_right hp.pos (by rw [hk]; ac_rfl)
  rw [hquot]
  exact (isPeriodicPt_minimalPeriod f x).mul_const j

/-- Two iterates are the same exactly when their numbers agree modulo the period. -/
theorem iterate_eq_iterate_iff (hper : 0 < minimalPeriod f x) (j k : Nat) :
    f^[j] x = f^[k] x ↔ j ≡ k [MOD minimalPeriod f x] := by
  rw [← iterate_mod_minimalPeriod_eq (n := j), ← iterate_mod_minimalPeriod_eq (n := k)]
  exact iterate_eq_iterate_iff_of_lt_minimalPeriod (Nat.mod_lt j hper) (Nat.mod_lt k hper)

/-- A periodic orbit never meets a fixed point outside of it. -/
theorem iterate_ne_of_fixed {n : Nat} (hn : 0 < n) (hper : IsPeriodicPt f n x) {z : α}
    (hz : f z = z) (hne : x ≠ z) (k : Nat) : f^[k] x ≠ z := by
  intro hk
  apply hne
  have hle : k ≤ n * k := Nat.le_mul_of_pos_left k hn
  -- once at the fixed point it stays there, but after `n * k` steps it is back
  calc x = f^[n * k] x := (hper.mul_const k).symm
    _ = f^[n * k - k] (f^[k] x) := by rw [← iterate_add_apply, Nat.sub_add_cancel hle]
    _ = z := by rw [hk, iterate_fixed hz]

/-- An orbit that stays in a finite set and whose least period is the size of the
    set reaches every element of it. -/
theorem exists_iterate_eq {S : Finset α} (hmem : ∀ k, f^[k] x ∈ S)
    (hcard : S.card = minimalPeriod f x) {y : α} (hy : y ∈ S) :
    ∃ k < minimalPeriod f x, f^[k] x = y := by
  classical
  have hsub : (Finset.range (minimalPeriod f x)).image (fun k => f^[k] x) ⊆ S := by
    intro z hz
    obtain ⟨k, -, rfl⟩ := Finset.mem_image.mp hz
    exact hmem k
  -- the iterates below the period are different, so they fill the set
  have hinj : Set.InjOn (fun k => f^[k] x) (Finset.range (minimalPeriod f x) : Set Nat) := by
    rw [Finset.coe_range]
    exact iterate_injOn_Iio_minimalPeriod
  have himage : (Finset.range (minimalPeriod f x)).image (fun k => f^[k] x) = S := by
    apply Finset.eq_of_subset_of_card_le hsub
    rw [Finset.card_image_of_injOn hinj, Finset.card_range, hcard]
  rw [← himage] at hy
  obtain ⟨k, hk, rfl⟩ := Finset.mem_image.mp hy
  exact ⟨k, Finset.mem_range.mp hk, rfl⟩

end Cycle

end NomosRt.Lib
