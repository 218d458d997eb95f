/-
  NomosRt.Modulator.Turing

  The looping register of `shift_register_modulator`.

  Every value of the random generator is at least 0 and below 1, so with parameter 0
  the bit that leaves the register always comes back in, and with parameter 1 always
  inverted.  After some edges the register is then its old bits, moved up, above the
  bits that came back; after as many edges as it has bits, all of them have.
-/

import NomosRt.Modulator.Residue
import NomosRt.Modulator.ShiftRegister

namespace NomosRt.Modulator

open NomosRt.Lib CFloat

/-! ## Bits that come back -/

/-- One edge on the register as a number: the last bit comes back, inverted if
    `flip` is set. -/
def turnUpdate (flip : Bool) (n v : Nat) : Nat :=
  ((v <<< 1) ||| (xor flip (v.testBit (n - 1))).toNat) % 2 ^ n

/-- After `k` edges the low `k` bits have come back. -/
theorem testBit_turnUpdate_iterate (flip : Bool) {n k : Nat} (hk : k ≤ n) (v : Nat) {i : Nat}
    (hi : i < n) :
    ((turnUpdate flip n)^[k] v).testBit i =
      if i < k then xor flip (v.testBit (n - k + i)) else v.testBit (i - k) := by
  induction k generalizing i with
  | zero => rfl
  | succ k ih =>
      rw [Function.iterate_succ_apply', turnUpdate, testBit_shiftIn, decide_eq_true hi,
        Bool.true_and]
      split
      · next hzero =>
        -- the bit that came in last was the old bit `n - 1 - k`
        rw [ih (by omega) (by omega), if_neg (by omega), if_pos (by omega)]
        congr 2
        omega
      · next hpos =>
        rw [ih (by omega) (by omega)]
        split
        · next hlow =>
          rw [if_pos (by omega)]
          congr 2
          omega
        · next hhigh =>
          rw [if_neg (by omega)]
          congr 1
          omega

theorem turnUpdate_iterate_lt (flip : Bool) {n v : Nat} (hv : v < 2 ^ n) (k : Nat) :
    (turnUpdate flip n)^[k] v < 2 ^ n := by
  cases k with
  | zero => exact hv
  | succ k =>
      rw [Function.iterate_succ_apply']
      exact Nat.mod_lt _ (Nat.two_pow_pos n)

/-- After `n` edges every bit has come back. -/
theorem turnUpdate_iterate_length (flip : Bool) {n v : Nat} (hv : v < 2 ^ n) :
    (turnUpdate flip n)^[n] v = if flip then 2 ^ n - 1 - v else v := by
  apply Nat.eq_of_testBit_eq
  intro i
  rcases Nat.lt_or_ge i n with hi | hi
  · -- below it, bit i came back as itself or inverted
    rw [testBit_turnUpdate_iterate flip (Nat.le_refl n) v hi, if_pos hi, Nat.sub_self,
      Nat.zero_add]
    cases flip with
    | false => exact Bool.false_xor _
    | true =>
        rw [if_pos rfl, Nat.sub_sub, Nat.add_comm, Nat.testBit_two_pow_sub_succ hv,
          decide_eq_true hi, Bool.true_and, Bool.true_xor]
  · -- above the length both sides are 0
    have hpow : 2 ^ n ≤ 2 ^ i := Nat.pow_le_pow_right Nat.two_pos hi
    have hlt := turnUpdate_iterate_lt flip hv n
    rw [Nat.testBit_lt_two_pow (by omega)]
    symm
    apply Nat.testBit_lt_two_pow
    split
    · omega
    · omega

/-- With inverted bits, twice as many edges are needed. -/
theorem turnUpdate_iterate_twice {n v : Nat} (hv : v < 2 ^ n) :
    (turnUpdate true n)^[2 * n] v = v := by
  have hlt := turnUpdate_iterate_lt true hv n
  rw [Nat.two_mul, Function.iterate_add_apply, turnUpdate_iterate_length true hlt,
    turnUpdate_iterate_length true hv, if_pos rfl, if_pos rfl]
  omega

/-! ## The generator -/

section Random

variable {F : Type*} [CFloat F] [SingleExact F]

/-- `next_random` is exact: a multiple of 2⁻²⁴ below 1. -/
theorem nextRandom_eq (randState : BitVec 32) :
    ∃ k : Nat, k < 2 ^ 24 ∧ (ShiftRegister.nextRandom randState).1 = (lit (k / 2 ^ 24) : F) := by
  generalize hnext : randState * 1664525 + 1013904223 = next
  have hk : (next >>> 8).toNat < 2 ^ 24 := by
    rw [BitVec.toNat_ushiftRight, Nat.shiftRight_eq_div_pow]
    have := next.isLt
    omega
  refine ⟨(next >>> 8).toNat, hk, ?_⟩
  -- conversion, quotient and product are all exact, as 24 bits are enough
  have hunit : lit 1 / lit 16777216 = (lit (1 / 2 ^ 24) : F) := by
    have h := SingleExact.div_eq (F := F) 1 (2 ^ 24) (by norm_num) (by norm_num)
      (by simpa using isSingle_natCast (k := 1) (by norm_num)) (isSingle_two_pow (by decide))
      (by simpa using isSingle_natCast_div (k := 1) (e := 24) (by norm_num) (by decide))
    norm_num at h ⊢
    exact h
  have hprod := SingleExact.mul_eq (F := F) (next >>> 8).toNat (1 / 2 ^ 24) (by positivity)
    (by positivity) (isSingle_natCast hk)
    (by simpa using isSingle_natCast_div (k := 1) (e := 24) (by norm_num) (by decide))
    (by simpa [div_eq_mul_inv] using isSingle_natCast_div (e := 24) hk (by decide))
  have hint : CFloat.ofInt (next >>> 8).toNat = (lit (next >>> 8).toNat : F) := by
    have h := SingleExact.ofInt_eq (F := F) (next >>> 8).toNat
      (by rw [Int.cast_natCast]; exact isSingle_natCast hk)
    rwa [Int.cast_natCast] at h
  show CFloat.ofInt ((randState * 1664525 + 1013904223) >>> 8).toNat * (lit 1 / lit 16777216) = _
  rw [hnext, hunit, hint, hprod, mul_one_div]

/-- Never below 0. -/
theorem nextRandom_lt_zero (randState : BitVec 32) :
    lt (ShiftRegister.nextRandom randState).1 (lit 0 : F) = false := by
  obtain ⟨k, hk, heq⟩ := nextRandom_eq (F := F) randState
  have hzero : IsSingle 0 := by simpa using isSingle_natCast (k := 0) (by norm_num)
  rw [heq, SingleExact.lt_eq _ _ (isSingle_natCast_div hk (by decide)) hzero, decide_eq_false_iff_not,
    not_lt]
  positivity

/-- Always below 1. -/
theorem nextRandom_lt_one (randState : BitVec 32) :
    lt (ShiftRegister.nextRandom randState).1 (lit 1 : F) = true := by
  obtain ⟨k, hk, heq⟩ := nextRandom_eq (F := F) randState
  have hone : IsSingle 1 := by simpa using isSingle_natCast (k := 1) (by norm_num)
  rw [heq, SingleExact.lt_eq _ _ (isSingle_natCast_div hk (by decide)) hone, decide_eq_true_iff,
    div_lt_one (by positivity)]
  exact_mod_cast hk

end Random

/-! ## Edges -/

section Edges

variable {F : Type*} [CFloat F]

open ShiftRegister

omit [CFloat F] in
theorem msb_eq (s : ShiftRegister F) : s.msb = s.reg.toNat.testBit (s.length - 1) := by
  rw [msb, and_one_ne_zero, BitVec.toNat_ushiftRight, Nat.testBit_shiftRight, Nat.add_zero]

/-- Mode `turing` with parameter 0, or 1 if `flip` is set, and what `s₀` outputs with. -/
structure AtExtreme (flip : Bool) (s₀ s : ShiftRegister F) : Prop where
  mode : s.mode = .turing
  param : s.param = lit (if flip then 1 else 0)
  length : s.length = s₀.length
  dacBits : s.dacBits = s₀.dacBits
  depth : s.depth = s₀.depth

/-- The output at an edge, from the register after it. -/
def turningOutput (s₀ : ShiftRegister F) (v : Nat) : ModulatorOutput F :=
  fired { s₀ with reg := BitVec.ofNat 32 v, gateOut := v.testBit 0 }

variable [SingleExact F]

theorem AtExtreme.newBit {flip : Bool} {s₀ s : ShiftRegister F} (h : AtExtreme flip s₀ s) :
    s.newBit.1 = xor flip (s.reg.toNat.testBit (s.length - 1)) := by
  rw [ShiftRegister.newBit, h.mode, ← msb_eq]
  show (if lt (nextRandom s.randState).1 s.param then !s.msb else s.msb) = xor flip s.msb
  -- the draw is never below 0 and always below 1
  cases flip with
  | false =>
      have hparam : s.param = lit 0 := h.param
      rw [hparam, nextRandom_lt_zero, Bool.false_xor]
      rfl
  | true =>
      have hparam : s.param = lit 1 := h.param
      rw [hparam, nextRandom_lt_one, Bool.true_xor]
      rfl

theorem edgeView_turing (flip : Bool) (s₀ : ShiftRegister F) :
    EdgeView (AtExtreme flip s₀) (fun s => s.reg.toNat) (turnUpdate flip s₀.length)
      (turningOutput s₀) id where
  edge s hs := by
    refine ⟨⟨hs.mode, hs.param, hs.length, hs.dacBits, hs.depth⟩, ?_⟩
    show (shiftIn s.length s.reg s.newBit.1).toNat = _
    rw [toNat_shiftIn s.length_le, hs.newBit, turnUpdate, hs.length]
  phase s x hs := ⟨⟨hs.mode, hs.param, hs.length, hs.dacBits, hs.depth⟩, rfl⟩
  fired s hs := by
    -- the gate is the bit that came in, the lowest one of the register
    have hgate : s.newBit.1 = s.edge.reg.toNat.testBit 0 := by
      have hlen := s.length_ge
      show s.newBit.1 = (shiftIn s.length s.reg s.newBit.1).toNat.testBit 0
      rw [toNat_shiftIn s.length_le, testBit_shiftIn, decide_eq_true (by omega), Bool.true_and,
        if_pos rfl]
    have hreg : BitVec.ofNat 32 s.edge.reg.toNat = s.edge.reg := BitVec.ofNat_toNat _ _
    simp only [id, turningOutput, ShiftRegister.fired, held, dacOutput, hreg, ← hgate, ← hs.length,
      ← hs.dacBits, ← hs.depth]
    rfl

omit [SingleExact F] in
/-- Updates of the other parameters leave the loop alone. -/
theorem undisturbed_turing (flip : Bool) (s₀ : ShiftRegister F) {I B : Type*}
    {calls : List (ModulatorCall I String (ModulatorOutput F) B F)}
    (hcalls : ∀ key value, .update key value ∈ calls → key ≠ "param" ∧ key ≠ "depth") :
    Undisturbed (AtExtreme flip s₀) (fun s => s.reg.toNat) calls := by
  intro key value hmem s hs
  obtain ⟨hparam, hdepth⟩ := hcalls key value hmem
  obtain ⟨_, _, param, depth, heq, hp, hd⟩ := update_eq key value s
  rw [heq, hp hparam, hd hdepth]
  exact ⟨⟨hs.mode, hs.param, hs.length, hs.dacBits, hs.depth⟩, rfl⟩

end Edges

/-! ## Shift amounts -/

section Checked

/-- `x << n` where the language defines it. -/
def shlChecked (x : BitVec 32) (n : Int) : Option (BitVec 32) :=
  if 0 ≤ n ∧ n ≤ 31 then some (x <<< n.toNat) else none

/-- `x >> n` where the language defines it. -/
def shrChecked (x : BitVec 32) (n : Int) : Option (BitVec 32) :=
  if 0 ≤ n ∧ n ≤ 31 then some (x >>> n.toNat) else none

theorem shlChecked_eq (x : BitVec 32) {n : Int} (h : 0 ≤ n ∧ n ≤ 31) :
    shlChecked x n = some (x <<< n.toNat) := if_pos h

theorem shrChecked_eq (x : BitVec 32) {n : Int} (h : 0 ≤ n ∧ n ≤ 31) :
    shrChecked x n = some (x >>> n.toNat) := if_pos h

/-- The mask, with its shift checked. -/
def regMaskChecked (length : Int) : Option (BitVec 32) :=
  if length < 32 then do
    let top ← shlChecked 1#32 length
    pure (top - 1)
  else pure 0xFFFFFFFF

/-- `lfsr_new_bit`, with its shifts checked. -/
def lfsrNewBitChecked (length : Nat) (reg : BitVec 32) : Option Bool := do
  let x := reg &&& lfsrTaps.getD length 0
  let x := x ^^^ (← shrChecked x 16)
  let x := x ^^^ (← shrChecked x 8)
  let x := x ^^^ (← shrChecked x 4)
  let x := x ^^^ (← shrChecked x 2)
  let x := x ^^^ (← shrChecked x 1)
  pure (x &&& 1 ≠ 0)

theorem regMaskChecked_eq {n : Nat} (hn : n ≤ 32) : regMaskChecked n = some (regMask n) := by
  rw [regMaskChecked, regMask]
  by_cases hlt : n < 32
  · rw [if_pos (by omega), if_pos hlt, shlChecked_eq _ (by omega), Int.toNat_natCast]
    rfl
  · rw [if_neg (by omega), if_neg hlt]
    rfl

theorem lfsrNewBitChecked_eq (n : Nat) (reg : BitVec 32) :
    lfsrNewBitChecked n reg = some (lfsrNewBit n reg) := rfl

variable {F : Type} [CFloat F]

open ShiftRegister

/-- The constructor, with its shift checked. -/
def makeChecked (mode : SrMode) (length dacBits : Int) : Option (ShiftRegister F) := do
  let mask ← regMaskChecked (clampInt length 2 32)
  let reg := 0xACE1 &&& mask
  pure { (make mode length dacBits : ShiftRegister F) with reg := if reg = 0 then 1 else reg }

/-- `next_random`, with its shift checked. -/
def nextRandomChecked (randState : BitVec 32) : Option (F × BitVec 32) := do
  let randState := randState * 1664525 + 1013904223
  let k ← shrChecked randState 8
  pure (CFloat.ofInt k.toNat * (lit 1 / lit 16777216), randState)

/-- The most significant bit, with its shift checked. -/
def msbChecked (s : ShiftRegister F) : Option Bool := do
  let x ← shrChecked s.reg (s.length - 1)
  pure (x &&& 1 ≠ 0)

/-- The `switch` of `tick`, with its shifts checked. -/
def newBitChecked (s : ShiftRegister F) : Option (Bool × BitVec 32) :=
  match s.mode with
  | .lfsr => do
      let b ← lfsrNewBitChecked s.length s.reg
      pure (b, s.randState)
  | .rungler => do
      let msb ← msbChecked s
      pure (xor (lt s.param s.data) msb, s.randState)
  | .turing => do
      let msb ← msbChecked s
      let (r, randState) ← nextRandomChecked (F := F) s.randState
      pure (if lt r s.param then !msb else msb, randState)
  | .open => pure (lt (lit (1 / 2)) s.data, s.randState)

/-- `tick` from the `switch` on, with its shifts checked. -/
def edgeChecked (s : ShiftRegister F) : Option (ShiftRegister F) := do
  let (newBit, randState) ← newBitChecked s
  let mask ← regMaskChecked s.length
  let shifted ← shlChecked s.reg 1
  pure
    { s with
      reg := (shifted ||| (if newBit then 1 else 0)) &&& mask
      gateOut := newBit
      randState := randState }

/-- `dac_output`, with its shifts checked. -/
def dacOutputChecked (s : ShiftRegister F) : Option F := do
  -- on `int`, so a negative amount would show
  let shift : Int := s.length - s.dacBits
  let high ← shrChecked s.reg shift
  let top ← shlChecked 1#32 s.dacBits
  let raw := high &&& (top - 1)
  let maxVal : F := CFloat.ofInt (top - 1).toNat
  pure ((CFloat.ofInt raw.toNat / maxVal) * lit 2 - lit 1)

/-- The output, with the shifts of `dac_output` checked. -/
def outputChecked (s : ShiftRegister F) (gate : Bool) : Option (ModulatorOutput F) := do
  let dac ← dacOutputChecked s
  pure
    { (ModulatorOutput.zero : ModulatorOutput F) with
      cv := dac * s.depth
      gate := gate
      state := s.reg }

/-- `tick`, with every shift checked. -/
def tickChecked (rate : F) (s : ShiftRegister F) :
    Option (ModulatorOutput F × ShiftRegister F) :=
  if le rate (lit 0) then do
    let out ← outputChecked s false
    pure (out, s)
  else
    let s := { s with clockPhase := s.clockPhase + s.clockRate / rate }
    if lt s.clockPhase (lit 1) then do
      let out ← outputChecked s false
      pure (out, s)
    else do
      let s ← edgeChecked { s with clockPhase := s.clockPhase - lit 1 }
      let out ← outputChecked s s.gateOut
      pure (out, s)

theorem makeChecked_eq (mode : SrMode) (length dacBits : Int) :
    makeChecked mode length dacBits = some (make mode length dacBits : ShiftRegister F) := by
  have hge := (make mode length dacBits : ShiftRegister F).length_ge
  have hle := (make mode length dacBits : ShiftRegister F).length_le
  have hlen : clampInt length 2 32 = ((make mode length dacBits : ShiftRegister F).length : Int) := by
    show clampInt length 2 32 = ((clampInt length 2 32).toNat : Int)
    have hpos : 2 ≤ (clampInt length 2 32).toNat := hge
    omega
  rw [makeChecked, hlen, regMaskChecked_eq hle]
  rfl

omit [CFloat F] in
theorem msbChecked_eq (s : ShiftRegister F) : msbChecked s = some s.msb := by
  have hge := s.length_ge
  have hle := s.length_le
  have hpred : ((s.length : Int) - 1).toNat = s.length - 1 := by omega
  rw [msbChecked, shrChecked_eq _ (by omega), hpred]
  rfl

theorem newBitChecked_eq (s : ShiftRegister F) : newBitChecked s = some s.newBit := by
  rw [newBitChecked, newBit]
  cases s.mode with
  | lfsr =>
      rw [lfsrNewBitChecked_eq]
      rfl
  | rungler =>
      rw [msbChecked_eq]
      rfl
  | turing =>
      rw [msbChecked_eq]
      rfl
  | «open» => rfl

theorem edgeChecked_eq (s : ShiftRegister F) : edgeChecked s = some s.edge := by
  rw [edgeChecked, newBitChecked_eq, regMaskChecked_eq s.length_le]
  rfl

theorem dacOutputChecked_eq (s : ShiftRegister F) : dacOutputChecked s = some s.dacOutput := by
  have hge := s.length_ge
  have hle := s.length_le
  have hdge := s.dacBits_ge
  have hdle := s.dacBits_le
  have hshift : ((s.length : Int) - s.dacBits).toNat = s.length - s.dacBits := by omega
  rw [dacOutputChecked, shrChecked_eq _ (by omega), shlChecked_eq _ (by omega), hshift,
    Int.toNat_natCast]
  rfl

/-- No tick shifts by an amount outside of 0 to 31. -/
theorem tickChecked_eq (rate : F) (s : ShiftRegister F) :
    tickChecked rate s = some (s.tick rate) := by
  have hout (s : ShiftRegister F) (gate : Bool) :
      outputChecked s gate = some { s.held with gate := gate } := by
    rw [outputChecked, dacOutputChecked_eq]
    rfl
  rw [tickChecked, ShiftRegister.tick]
  split
  · rw [hout]
    rfl
  · dsimp only
    split
    · rw [hout]
      rfl
    · rw [edgeChecked_eq, Option.bind_eq_bind, Option.bind_some, hout]
      rfl

end Checked

/-! ## The loop -/

/-- The complement within the length. -/
theorem toNat_not_and_regMask {n : Nat} (hn : n ≤ 32) {reg : BitVec 32} (hreg : reg.toNat < 2 ^ n) :
    (~~~reg &&& regMask n).toNat = 2 ^ n - 1 - reg.toNat := by
  rw [BitVec.toNat_and, toNat_regMask hn, Nat.and_two_pow_sub_one_eq_mod, BitVec.toNat_not]
  -- the complement of the whole word is that of the low bits plus a multiple of 2 ^ n
  obtain ⟨c, hc⟩ : ∃ c, 2 ^ 32 = 2 ^ n + 2 ^ n * c := by
    have hpow : 2 ^ 32 = 2 ^ n * 2 ^ (32 - n) := by
      rw [← pow_add]
      congr 1
      omega
    obtain ⟨c, hc⟩ := Nat.exists_eq_add_of_lt (Nat.two_pow_pos (32 - n))
    refine ⟨c, ?_⟩
    rw [hpow, hc, Nat.zero_add, Nat.mul_succ, Nat.add_comm]
  have hsplit : 2 ^ 32 - 1 - reg.toNat = 2 ^ n - 1 - reg.toNat + 2 ^ n * c := by
    rw [hc]
    omega
  rw [hsplit, Nat.add_mul_mod_self_left, Nat.mod_eq_of_lt (by omega)]

/-- Mode `turing` loops at its extremes, whatever the random generator's state.  With
    parameter 0 the register is back after as many edges as it has bits, and so are
    the outputs at the edges of every run that leaves the parameter and the depth
    alone; with parameter 1 it is complemented, and back after twice as many; and no
    shift of the constructor, of `tick` or of `dac_output` is out of range. -/
theorem turing_loops_at_extremes {F : Type} {I B : Type*} [CFloat F] [SingleExact F]
    (s : ShiftRegister F) (hmode : s.mode = .turing) (hreg : s.reg.toNat < 2 ^ s.length) :
    (s.param = lit 0 →
      (ShiftRegister.edge^[s.length] s).reg = s.reg ∧
      ∀ calls : List (ModulatorCall I String (ModulatorOutput F) B F),
        (∀ key value, .update key value ∈ calls → key ≠ "param" ∧ key ≠ "depth") →
        ∀ i, i + s.length < (ShiftRegister.edgeOutputs calls s).length →
          (ShiftRegister.edgeOutputs calls s)[i + s.length]? =
            (ShiftRegister.edgeOutputs calls s)[i]?) ∧
    (s.param = lit 1 →
      (ShiftRegister.edge^[s.length] s).reg = ~~~s.reg &&& regMask s.length ∧
      (ShiftRegister.edge^[2 * s.length] s).reg = s.reg) ∧
    (∀ mode length dacBits, makeChecked mode length dacBits =
      some (ShiftRegister.make mode length dacBits : ShiftRegister F)) ∧
    (∀ (s : ShiftRegister F) rate, tickChecked rate s = some (s.tick rate)) ∧
    ∀ s : ShiftRegister F, dacOutputChecked s = some s.dacOutput := by
  refine ⟨?_, ?_, makeChecked_eq, fun s rate => tickChecked_eq rate s, dacOutputChecked_eq⟩
  · intro hparam
    have hs : AtExtreme false s s := ⟨hmode, hparam, rfl, rfl, rfl⟩
    have hturn : (turnUpdate false s.length)^[s.length] s.reg.toNat = s.reg.toNat :=
      turnUpdate_iterate_length false hreg
    constructor
    · rw [← BitVec.toNat_inj]
      exact ((edgeView_turing false s).iterate hs s.length).2.trans hturn
    · intro calls hcalls i hi
      have houts := ShiftRegister.edgeOutputs_eq (edgeView_turing false s)
        (undisturbed_turing false s hcalls) hs
      rw [List.map_id] at houts
      -- the outputs are those of the iterated map, which is periodic
      generalize ShiftRegister.edgeOutputs calls s = outs at houts hi ⊢
      rw [houts, List.getElem?_map, List.getElem?_map, List.getElem?_range hi,
        List.getElem?_range (by omega), Option.map_some, Option.map_some, Nat.add_right_comm,
        Function.iterate_add_apply, hturn]
  · intro hparam
    have hs : AtExtreme true s s := ⟨hmode, hparam, rfl, rfl, rfl⟩
    have hview := edgeView_turing true s
    constructor
    · rw [← BitVec.toNat_inj, toNat_not_and_regMask s.length_le hreg]
      exact (hview.iterate hs s.length).2.trans (turnUpdate_iterate_length true hreg)
    · rw [← BitVec.toNat_inj]
      exact (hview.iterate hs (2 * s.length)).2.trans (turnUpdate_iterate_twice hreg)

section Witness

attribute [local instance] exactFloat

theorem singleExact_exactFloat : SingleExact ℚ where
  ofInt_eq _ _ := rfl
  mul_eq _ _ _ _ _ _ _ := rfl
  div_eq _ _ _ _ _ _ _ := rfl
  lt_eq _ _ _ _ := rfl

/-- Three bits with parameter 0, clocked twice a second. -/
def threeBitLoop : ShiftRegister ℚ :=
  { (ShiftRegister.make .turing 3 1 : ShiftRegister ℚ) with param := 0, reg := 0b001 }

/-- Four seconds of ticks at the clock's rate. -/
def eightTicks : List (ModulatorCall Unit String (ModulatorOutput ℚ) Unit ℚ) :=
  List.replicate 8 (.tick (fun _ => none) () 2)

theorem turing_loops_threeBits :
    (ShiftRegister.edge^[3] threeBitLoop).reg = 0b001 ∧
    (ShiftRegister.edgeOutputs eightTicks threeBitLoop)[4]? =
      (ShiftRegister.edgeOutputs eightTicks threeBitLoop)[1]? ∧
    (ShiftRegister.edgeOutputs eightTicks threeBitLoop).map (·.state) =
      [0b010, 0b100, 0b001, 0b010, 0b100, 0b001, 0b010, 0b100] := by
  have hexact := singleExact_exactFloat
  obtain ⟨hreg, houts⟩ := (turing_loops_at_extremes (I := Unit) (B := Unit) threeBitLoop rfl
    (by decide)).1 rfl
  refine ⟨hreg, ?_, by decide +kernel⟩
  apply houts eightTicks ?_ 1 (by decide +kernel)
  intro key value hmem
  cases List.eq_of_mem_replicate hmem

end Witness

end NomosRt.Modulator
