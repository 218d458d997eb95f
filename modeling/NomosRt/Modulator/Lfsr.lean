/-
  NomosRt.Modulator.Lfsr

  The feedback register of `shift_register_modulator`: every length has a period of
  one less than the number of words.

  One clock edge is linear over exclusive or, so its powers are matrix powers.  For
  each length the register is back at its start after `2 ^ n - 1` edges and is not
  back after that number divided by any of its prime factors; both are evaluated.
-/

import NomosRt.Lib.XorLinear
import NomosRt.Modulator.ShiftRegister
import Mathlib.NumberTheory.LucasLehmer
import Mathlib.Tactic.NormNum.Prime

namespace NomosRt.Modulator

open NomosRt.Lib Function

/-! ## The update -/

/-- One edge on the register as a number: the parity of the tapped bits enters. -/
def lfsrUpdate (n v : Nat) : Nat :=
  ((v <<< 1) ||| (parity 32 (v &&& (lfsrTaps.getD n 0).toNat)).toNat) % 2 ^ n

/-- `lfsr_new_bit` is the parity of the tapped bits. -/
theorem lfsrNewBit_eq (n : Nat) (reg : BitVec 32) :
    lfsrNewBit n reg = parity 32 (reg.toNat &&& (lfsrTaps.getD n 0).toNat) := by
  rw [← BitVec.toNat_and]
  -- each line of the source folds the upper half onto the lower one
  have fold (k : Nat) (x : BitVec 32) :
      parity (k + k) x.toNat = parity k (x ^^^ (x >>> k)).toNat := by
    rw [BitVec.toNat_xor, BitVec.toNat_ushiftRight, parity_fold]
  rw [fold 16, fold 8, fold 4, fold 2, fold 1, parity, parity, Bool.false_xor]
  exact and_one_ne_zero _

theorem toNat_lfsr {n : Nat} (hn : n ≤ 32) (reg : BitVec 32) :
    (shiftIn n reg (lfsrNewBit n reg)).toNat = lfsrUpdate n reg.toNat := by
  rw [toNat_shiftIn hn, lfsrNewBit_eq, lfsrUpdate]

theorem lfsrUpdate_lt (n v : Nat) : lfsrUpdate n v < 2 ^ n :=
  Nat.mod_lt _ (Nat.two_pow_pos n)

theorem iterate_lfsrUpdate_lt {n v : Nat} (hv : v < 2 ^ n) (k : Nat) :
    (lfsrUpdate n)^[k] v < 2 ^ n := by
  cases k with
  | zero => exact hv
  | succ k =>
      rw [iterate_succ_apply']
      exact lfsrUpdate_lt n _

theorem order_pos {n : Nat} (hn : 2 ≤ n) : 0 < 2 ^ n - 1 := by
  have hle := Nat.pow_le_pow_right Nat.two_pos hn
  omega

/-- The update is linear. -/
theorem lfsrUpdate_xor (n a b : Nat) :
    lfsrUpdate n (a ^^^ b) = lfsrUpdate n a ^^^ lfsrUpdate n b := by
  apply Nat.eq_of_testBit_eq
  intro i
  -- bit 0 is a parity and every other bit is moved up: both are linear
  rw [Nat.testBit_xor, lfsrUpdate, lfsrUpdate, lfsrUpdate, testBit_shiftIn, testBit_shiftIn,
    testBit_shiftIn, ← Bool.and_xor_distrib_left, Nat.and_xor_distrib_right, parity_xor, Nat.testBit_xor]
  split
  · rfl
  · rfl

theorem lfsrUpdate_zero (n : Nat) : lfsrUpdate n 0 = 0 := by
  have h := lfsrUpdate_xor n 0 0
  rwa [Nat.xor_self, Nat.xor_self] at h

theorem hasCols_lfsrUpdate (n : Nat) :
    HasCols n (lfsrUpdate n) (columns (lfsrUpdate n) n) where
  eq _ hv := eq_applyCols (lfsrUpdate_xor n) hv
  lt c hc := by
    obtain ⟨i, -, rfl⟩ := List.mem_map.mp hc
    exact lfsrUpdate_lt n _

/-! ## The period -/

/-- The prime factors of `2 ^ n - 1`, with multiplicity, for `n` up to 32. -/
def mersenneFactors : List (List Nat) :=
  [[], [], [3], [7], [3, 5], [31], [3, 3, 7], [127], [3, 5, 17], [7, 73], [3, 11, 31], [23, 89],
    [3, 3, 5, 7, 13], [8191], [3, 43, 127], [7, 31, 151], [3, 5, 17, 257], [131071],
    [3, 3, 3, 7, 19, 73], [524287], [3, 5, 5, 11, 31, 41], [7, 7, 127, 337], [3, 23, 89, 683],
    [47, 178481], [3, 3, 5, 7, 13, 17, 241], [31, 601, 1801], [3, 2731, 8191], [7, 73, 262657],
    [3, 5, 29, 43, 113, 127], [233, 1103, 2089], [3, 3, 7, 11, 31, 151, 331], [2147483647],
    [3, 5, 17, 257, 65537]]

/-- The primes of the table. -/
def mersennePrimes : List Nat :=
  [3, 5, 7, 11, 13, 17, 19, 23, 29, 31, 41, 43, 47, 73, 89, 113, 127, 151, 233, 241, 257, 331,
    337, 601, 683, 1103, 1801, 2089, 2731, 8191, 65537, 131071, 178481, 262657, 524287, 2147483647]

theorem prime_of_mem_mersennePrimes : ∀ p ∈ mersennePrimes, p.Prime := by
  -- trial division would be too slow on the three Mersenne primes
  have h17 : Nat.Prime 131071 := lucas_lehmer_sufficiency 17 (by norm_num) (by norm_num)
  have h19 : Nat.Prime 524287 := lucas_lehmer_sufficiency 19 (by norm_num) (by norm_num)
  have h31 : Nat.Prime 2147483647 := lucas_lehmer_sufficiency 31 (by norm_num) (by norm_num)
  simp only [mersennePrimes, List.forall_mem_cons, h17, h19, h31]
  norm_num

theorem prime_of_mem_mersenneFactors {n p : Nat} (hp : p ∈ mersenneFactors.getD n []) :
    p.Prime := by
  have htable : ∀ factors ∈ mersenneFactors, ∀ p ∈ factors, p ∈ mersennePrimes := by
    decide
  rcases Nat.lt_or_ge n mersenneFactors.length with hlt | hge
  · rw [List.getD_eq_getElem _ _ hlt] at hp
    exact prime_of_mem_mersennePrimes p (htable _ (List.getElem_mem hlt) p hp)
  · rw [List.getD_eq_default _ _ hge] at hp
    cases hp

/-- The register's value when it is constructed. -/
def lfsrSeed (n : Nat) : Nat := 0xACE1 % 2 ^ n

/-- The table has the factors of `2 ^ n - 1`, that many edges lead from the seed back
    to it, and leaving out a factor does not. -/
def lfsrCheck (n : Nat) : Bool :=
  let order := 2 ^ n - 1
  let factors := mersenneFactors.getD n []
  factors.prod = order &&
  match powersAt n n (columns (lfsrUpdate n) n)
      ((order, lfsrSeed n) :: factors.map fun p => (order / p, lfsrSeed n)) with
  | [] => false
  | v :: vs => v = lfsrSeed n && vs.all (· ≠ lfsrSeed n)

theorem lfsrCheck_all : ∀ n < 33, 2 ≤ n → lfsrCheck n = true := by
  decide +kernel

theorem lfsrSeed_lt (n : Nat) : lfsrSeed n < 2 ^ n := Nat.mod_lt _ (Nat.two_pow_pos n)

theorem lfsrSeed_ne_zero {n : Nat} (hn : 2 ≤ n) : lfsrSeed n ≠ 0 := by
  have hodd : lfsrSeed n % 2 = 1 := by
    rw [lfsrSeed, Nat.mod_mod_of_dvd _ (dvd_pow_self 2 (by omega))]
  omega

theorem minimalPeriod_lfsrSeed {n : Nat} (hn : 2 ≤ n) (hn' : n ≤ 32) :
    minimalPeriod (lfsrUpdate n) (lfsrSeed n) = 2 ^ n - 1 := by
  have hpos := Nat.two_pow_pos n
  have hseed := lfsrSeed_lt n
  have hcheck := lfsrCheck_all n (by omega) hn
  rw [lfsrCheck, powersAt_eq (by omega) (hasCols_lfsrUpdate n), List.map_cons, List.map_map,
    Bool.and_eq_true, Bool.and_eq_true, decide_eq_true_iff, decide_eq_true_iff,
    List.all_eq_true] at hcheck
  · obtain ⟨hprod, hback, hnot⟩ := hcheck
    apply minimalPeriod_eq_of_prime hback
    intro p hp hdvd
    -- `p` divides the product, so it is one of the factors
    rw [← hprod, hp.prime.dvd_prod_iff] at hdvd
    obtain ⟨q, hq, hpq⟩ := hdvd
    obtain rfl := (Nat.prime_dvd_prime_iff_eq hp (prime_of_mem_mersenneFactors hq)).mp hpq
    have hne := hnot _ (List.mem_map_of_mem hq)
    exact of_decide_eq_true hne
  · intro e he
    rw [List.mem_cons, List.mem_map] at he
    rcases he with rfl | ⟨p, -, rfl⟩
    · exact ⟨by omega, hseed⟩
    · have hle := Nat.div_le_self (2 ^ n - 1) p
      exact ⟨by show (2 ^ n - 1) / p < 2 ^ n; omega, hseed⟩

/-- The update runs through all non-zero words in one cycle, wherever it starts. -/
structure OneCycle (n v : Nat) : Prop where
  period : minimalPeriod (lfsrUpdate n) v = 2 ^ n - 1
  ne_zero : ∀ k, (lfsrUpdate n)^[k] v ≠ 0
  reaches : ∀ w, w ≠ 0 → w < 2 ^ n → ∃ k < 2 ^ n - 1, (lfsrUpdate n)^[k] v = w

theorem OneCycle.of_period {n v : Nat} (hn : 2 ≤ n) (hv : v ≠ 0) (hlt : v < 2 ^ n)
    (hper : minimalPeriod (lfsrUpdate n) v = 2 ^ n - 1) : OneCycle n v := by
  -- 0 is a fixed point, so an orbit that comes back never meets it
  have hne : ∀ k, (lfsrUpdate n)^[k] v ≠ 0 := by
    apply iterate_ne_of_fixed (order_pos hn) _ (lfsrUpdate_zero n) hv
    rw [← hper]
    exact isPeriodicPt_minimalPeriod _ _
  refine ⟨hper, hne, ?_⟩
  intro w hw hwlt
  -- as many different words as there are non-zero ones
  rw [← hper]
  apply exists_iterate_eq (S := Finset.Ico 1 (2 ^ n))
  · intro k
    rw [Finset.mem_Ico]
    exact ⟨Nat.one_le_iff_ne_zero.mpr (hne k), iterate_lfsrUpdate_lt hlt k⟩
  · rw [Nat.card_Ico, hper]
  · rw [Finset.mem_Ico]
    exact ⟨Nat.one_le_iff_ne_zero.mpr hw, hwlt⟩

theorem oneCycle {n v : Nat} (hn : 2 ≤ n) (hn' : n ≤ 32) (hv : v ≠ 0) (hlt : v < 2 ^ n) :
    OneCycle n v := by
  apply OneCycle.of_period hn hv hlt
  have hseed := OneCycle.of_period hn (lfsrSeed_ne_zero hn) (lfsrSeed_lt n)
    (minimalPeriod_lfsrSeed hn hn')
  -- `v` is on the orbit of the seed
  obtain ⟨k, hk, rfl⟩ := hseed.reaches v hv hlt
  rw [minimalPeriod_apply_iterate, hseed.period]
  apply minimalPeriod_pos_iff_mem_periodicPts.mp
  rw [hseed.period]
  exact order_pos hn

/-! ## The modulator -/

section Run

variable {F : Type*} [CFloat F]

open ShiftRegister

/-- In mode `lfsr` an edge is the update, whatever the parameters. -/
theorem edgeView_lfsr (n : Nat) :
    EdgeView (fun s : ShiftRegister F => s.mode = .lfsr ∧ s.length = n) (fun s => s.reg.toNat)
      (lfsrUpdate n) id (fun o => o.state.toNat) where
  edge s hs := by
    obtain ⟨hmode, rfl⟩ := hs
    refine ⟨⟨hmode, rfl⟩, ?_⟩
    show (shiftIn s.length s.reg s.newBit.1).toNat = _
    rw [newBit, hmode, toNat_lfsr s.length_le]
  phase s x hs := ⟨hs, rfl⟩
  fired s _ := rfl

theorem undisturbed_lfsr (n : Nat) {I B : Type*}
    (calls : List (ModulatorCall I String (ModulatorOutput F) B F)) :
    Undisturbed (fun s : ShiftRegister F => s.mode = .lfsr ∧ s.length = n)
      (fun s => s.reg.toNat) calls := by
  intro key value _ s hs
  obtain ⟨_, _, _, _, heq, -, -⟩ := update_eq key value s
  rw [heq]
  exact ⟨hs, rfl⟩

/-- The constructor's register is the seed; the guard against 0 never fires. -/
theorem toNat_make_reg (mode : SrMode) (length dacBits : Int) :
    (make mode length dacBits : ShiftRegister F).reg.toNat =
      lfsrSeed (make mode length dacBits : ShiftRegister F).length := by
  have hge := (make mode length dacBits : ShiftRegister F).length_ge
  have hle := (make mode length dacBits : ShiftRegister F).length_le
  generalize hn : (make mode length dacBits : ShiftRegister F).length = n at hge hle ⊢
  have hmasked : (0xACE1 &&& regMask n).toNat = lfsrSeed n := by
    rw [BitVec.toNat_and, toNat_regMask hle, Nat.and_two_pow_sub_one_eq_mod]
    rfl
  have hreg : (make mode length dacBits : ShiftRegister F).reg =
      if 0xACE1 &&& regMask n = 0 then 1 else 0xACE1 &&& regMask n := by
    rw [← hn]
    rfl
  rw [hreg, if_neg, hmasked]
  intro hzero
  apply lfsrSeed_ne_zero hge
  rw [← hmasked, hzero]
  rfl

end Run

/-- The feedback register is maximal at every length.  From the constructor's value,
    the registers after successive edges are never 0, stay below `2 ^ n`, run through
    all non-zero words, and repeat exactly with period `2 ^ n - 1`; the update acts on
    the non-zero words as one cycle; and the edges of every run of ticks and updates
    show these registers. -/
theorem lfsr_maximal_length {F I B : Type*} [CFloat F] (length dacBits : Int) :
    let s : ShiftRegister F := .make .lfsr length dacBits
    (∀ k, (ShiftRegister.edge^[k] s).reg ≠ 0 ∧
      (ShiftRegister.edge^[k] s).reg.toNat < 2 ^ s.length) ∧
    (∀ j k, (ShiftRegister.edge^[j] s).reg = (ShiftRegister.edge^[k] s).reg ↔
      j ≡ k [MOD 2 ^ s.length - 1]) ∧
    (∀ w : BitVec 32, w ≠ 0 → w.toNat < 2 ^ s.length →
      ∃ k < 2 ^ s.length - 1, (ShiftRegister.edge^[k] s).reg = w) ∧
    (∀ v, v ≠ 0 → v < 2 ^ s.length → OneCycle s.length v) ∧
    ∀ calls : List (ModulatorCall I String (ModulatorOutput F) B F),
      (ShiftRegister.edgeOutputs calls s).map (·.state) =
        (List.range (ShiftRegister.edgeOutputs calls s).length).map
          fun k => (ShiftRegister.edge^[k + 1] s).reg := by
  intro s
  have hseed : s.reg.toNat = lfsrSeed s.length := toNat_make_reg .lfsr length dacBits
  have hmode : s.mode = .lfsr ∧ s.length = s.length := ⟨rfl, rfl⟩
  have hcycle : OneCycle s.length s.reg.toNat := by
    rw [hseed]
    -- the seed is odd at every length, so it is not 0
    exact oneCycle s.length_ge s.length_le (lfsrSeed_ne_zero s.length_ge) (lfsrSeed_lt _)
  have hedges (k : Nat) :
      (ShiftRegister.edge^[k] s).reg.toNat = (lfsrUpdate s.length)^[k] s.reg.toNat :=
    ((edgeView_lfsr s.length).iterate hmode k).2
  refine ⟨?_, ?_, ?_, ?_, ?_⟩
  · intro k
    constructor
    · intro hzero
      apply hcycle.ne_zero k
      rw [← hedges, hzero]
      rfl
    · rw [hedges, hseed]
      exact iterate_lfsrUpdate_lt (lfsrSeed_lt _) k
  · intro j k
    have hpos : 0 < minimalPeriod (lfsrUpdate s.length) s.reg.toNat := by
      rw [hcycle.period]
      exact order_pos s.length_ge
    rw [← BitVec.toNat_inj, hedges, hedges, iterate_eq_iterate_iff hpos, hcycle.period]
  · intro w hw hlt
    have hne : w.toNat ≠ 0 := fun h => hw (BitVec.toNat_inj.mp h)
    obtain ⟨k, hk, heq⟩ := hcycle.reaches w.toNat hne hlt
    refine ⟨k, hk, ?_⟩
    rw [← BitVec.toNat_inj, hedges, heq]
  · intro v hv hlt
    exact oneCycle s.length_ge s.length_le hv hlt
  · intro calls
    have hnat := ShiftRegister.edgeOutputs_eq (edgeView_lfsr s.length) (undisturbed_lfsr s.length calls) hmode
    apply List.map_injective_iff.mpr (fun _ _ => BitVec.toNat_inj.mp)
    rw [List.map_map, List.map_map]
    refine Eq.trans hnat ?_
    apply List.map_congr_left
    intro k _
    exact (hedges (k + 1)).symm

end NomosRt.Modulator
