/-
  NomosRt.Modulator.ShiftRegister

  `shift_register_modulator`: a clocked register of 2 to 32 bits with four feedback
  modes and a converter that reads its most significant bits.

  The part of `tick` behind the two early returns is a definition of its own,
  `edge`: what one clock edge does to the register.  What a run shows at its edges
  is then a matter of iterating it.
-/

import NomosRt.Modulator.Engine
import NomosRt.Modulator.Graph

namespace NomosRt.Modulator

open NomosRt.Lib CFloat

/-- `std::clamp` on `int`. -/
def clampInt (v lo hi : Int) : Int := if v < lo then lo else if hi < v then hi else v

/-- `shift_register_modulator::mode`. -/
inductive SrMode where
  | lfsr
  | rungler
  | turing
  | open
  deriving DecidableEq, Repr

/-- `shift_register_modulator`; the bounds are those of the constructor's clamps. -/
structure ShiftRegister (F : Type*) where
  mode : SrMode
  length : Nat
  dacBits : Nat
  reg : BitVec 32
  gateOut : Bool
  clockRate : F
  data : F
  param : F
  depth : F
  clockPhase : F
  randState : BitVec 32
  length_ge : 2 ≤ length
  length_le : length ≤ 32
  dacBits_ge : 1 ≤ dacBits
  dacBits_le : dacBits ≤ min length 8

/-- `lfsr_taps`. -/
def lfsrTaps : List (BitVec 32) :=
  [0x00000000, 0x00000000, 0x00000003, 0x00000006, 0x0000000C, 0x00000014, 0x00000030,
    0x00000060, 0x000000B8, 0x00000110, 0x00000240, 0x00000500, 0x00000E08, 0x00001C80,
    0x00003802, 0x00006000, 0x0000D008, 0x00012000, 0x00020400, 0x00072000, 0x00090000,
    0x00140000, 0x00300000, 0x00420000, 0x00E10000, 0x01200000, 0x02000023, 0x04000013,
    0x09000000, 0x14000000, 0x20000029, 0x48000000, 0x80200003]

/-- The mask of the register's bits. -/
def regMask (length : Nat) : BitVec 32 :=
  if length < 32 then (1#32 <<< length) - 1 else 0xFFFFFFFF

/-- `lfsr_new_bit`: the parity of the tapped bits, folded down to bit 0. -/
def lfsrNewBit (length : Nat) (reg : BitVec 32) : Bool :=
  let x := reg &&& lfsrTaps.getD length 0
  let x := x ^^^ (x >>> 16)
  let x := x ^^^ (x >>> 8)
  let x := x ^^^ (x >>> 4)
  let x := x ^^^ (x >>> 2)
  let x := x ^^^ (x >>> 1)
  x &&& 1 ≠ 0

/-- `reg_ = ((reg_ << 1u) | (new_bit ? 1u : 0u)) & mask`. -/
def shiftIn (length : Nat) (reg : BitVec 32) (newBit : Bool) : BitVec 32 :=
  ((reg <<< 1) ||| (if newBit then 1 else 0)) &&& regMask length

theorem toNat_regMask {n : Nat} (hn : n ≤ 32) : (regMask n).toNat = 2 ^ n - 1 := by
  rw [regMask]
  split
  · next hlt =>
    have hpow : 2 ^ n < 2 ^ 32 := Nat.pow_lt_pow_right (by decide) hlt
    have hone : (1#32 <<< n).toNat = 2 ^ n := by
      rw [BitVec.toNat_shiftLeft, Nat.shiftLeft_eq]
      show 1 % 2 ^ 32 * 2 ^ n % 2 ^ 32 = 2 ^ n
      omega
    have hpos := Nat.two_pow_pos n
    rw [BitVec.toNat_sub_of_le, hone]
    · rfl
    · rw [BitVec.le_def, hone]
      exact hpos
  · next hge =>
    obtain rfl : n = 32 := by omega
    rfl

/-- `x & 1u` as a condition. -/
theorem and_one_ne_zero (x : BitVec 32) : decide (x &&& 1 ≠ 0) = x.toNat.testBit 0 := by
  have hiff : x &&& 1 ≠ 0 ↔ x.toNat % 2 = 1 := by
    rw [ne_eq, ← BitVec.toNat_inj, BitVec.toNat_and]
    show ¬ (x.toNat &&& 1 = 0) ↔ x.toNat % 2 = 1
    rw [Nat.and_one_is_mod]
    omega
  rw [Nat.testBit_zero, decide_eq_decide]
  exact hiff

/-- The register is doubled, takes the bit in and is cut to its length. -/
theorem toNat_shiftIn {n : Nat} (hn : n ≤ 32) (reg : BitVec 32) (b : Bool) :
    (shiftIn n reg b).toNat = ((reg.toNat <<< 1) ||| b.toNat) % 2 ^ n := by
  have hb : (if b then 1 else 0 : BitVec 32).toNat = b.toNat := by
    cases b <;> rfl
  have hdvd : 2 ^ n ∣ 2 ^ 32 := Nat.pow_dvd_pow 2 hn
  rw [shiftIn, BitVec.toNat_and, BitVec.toNat_or, toNat_regMask hn, BitVec.toNat_shiftLeft, hb,
    Nat.and_two_pow_sub_one_eq_mod, Nat.or_mod_two_pow, Nat.or_mod_two_pow,
    Nat.mod_mod_of_dvd _ hdvd]

/-- Bit by bit: the new bit comes in below, all others move up by one. -/
theorem testBit_shiftIn (n v i : Nat) (b : Bool) :
    (((v <<< 1) ||| b.toNat) % 2 ^ n).testBit i =
      (decide (i < n) && if i = 0 then b else v.testBit (i - 1)) := by
  rw [Nat.testBit_mod_two_pow, Nat.testBit_or, Nat.testBit_shiftLeft]
  congr 1
  cases i with
  | zero => cases b <;> rfl
  | succ i =>
      have hb : b.toNat.testBit (i + 1) = false := by
        cases b with
        | false => exact Nat.zero_testBit _
        | true =>
            show Nat.testBit 1 (i + 1) = false
            rw [Nat.testBit_succ]
            exact Nat.zero_testBit i
      rw [hb, if_neg (Nat.succ_ne_zero i), Bool.or_false,
        decide_eq_true (by omega : i + 1 ≥ 1), Bool.true_and]

section Modulator

variable {F : Type*} [CFloat F]

namespace ShiftRegister

/-- The constructor. -/
def make (mode : SrMode) (length dacBits : Int) : ShiftRegister F :=
  let len := (clampInt length 2 32).toNat
  let reg := 0xACE1 &&& regMask len
  { mode := mode
    length := len
    dacBits := (clampInt dacBits 1 (Min.min len 8)).toNat
    -- all zeros would lock the feedback
    reg := if reg = 0 then 1 else reg
    gateOut := false
    clockRate := lit 2
    data := lit (1 / 2)
    param := lit (1 / 2)
    depth := lit 1
    clockPhase := lit 0
    randState := 0xACE1
    length_ge := by
      show 2 ≤ (clampInt length 2 32).toNat
      unfold clampInt
      split <;> [skip; split] <;> omega
    length_le := by
      show (clampInt length 2 32).toNat ≤ 32
      unfold clampInt
      split <;> [skip; split] <;> omega
    dacBits_ge := by
      have hlen : 2 ≤ len := by
        show 2 ≤ (clampInt length 2 32).toNat
        unfold clampInt
        split <;> [skip; split] <;> omega
      show 1 ≤ (clampInt dacBits 1 (Min.min len 8)).toNat
      unfold clampInt
      split <;> [skip; split] <;> omega
    dacBits_le := by
      have hlen : 2 ≤ len := by
        show 2 ≤ (clampInt length 2 32).toNat
        unfold clampInt
        split <;> [skip; split] <;> omega
      show (clampInt dacBits 1 (Min.min len 8)).toNat ≤ Min.min len 8
      unfold clampInt
      split <;> [skip; split] <;> omega }

/-- `next_random`: the value in units of 2⁻²⁴ and the generator after it. -/
def nextRandom (randState : BitVec 32) : F × BitVec 32 :=
  let randState := randState * 1664525 + 1013904223
  (CFloat.ofInt (randState >>> 8).toNat * (lit 1 / lit 16777216), randState)

/-- The bit that the next shift pushes out. -/
def msb (s : ShiftRegister F) : Bool := (s.reg >>> (s.length - 1)) &&& 1 ≠ 0

/-- The `switch` of `tick`: the new bit and the generator after it. -/
def newBit (s : ShiftRegister F) : Bool × BitVec 32 :=
  match s.mode with
  | .lfsr => (lfsrNewBit s.length s.reg, s.randState)
  | .rungler => (xor (lt s.param s.data) s.msb, s.randState)
  -- only this mode draws a random number
  | .turing =>
      let (r, randState) := nextRandom (F := F) s.randState
      (if lt r s.param then !s.msb else s.msb, randState)
  | .open => (lt (lit (1 / 2)) s.data, s.randState)

/-- `tick` from the `switch` to the store of `gate_out_`. -/
def edge (s : ShiftRegister F) : ShiftRegister F :=
  let (newBit, randState) := s.newBit
  { s with
    reg := shiftIn s.length s.reg newBit
    gateOut := newBit
    randState := randState }

/-- `dac_output`. -/
def dacOutput (s : ShiftRegister F) : F :=
  -- the most significant bits of the register
  let shift := s.length - s.dacBits
  let raw := (s.reg >>> shift) &&& ((1#32 <<< s.dacBits) - 1)
  let maxVal : F := CFloat.ofInt ((1#32 <<< s.dacBits) - 1).toNat
  (CFloat.ofInt raw.toNat / maxVal) * lit 2 - lit 1

/-- The output without an edge; `.gate` keeps its default. -/
def held (s : ShiftRegister F) : ModulatorOutput F :=
  { (ModulatorOutput.zero : ModulatorOutput F) with
    cv := s.dacOutput * s.depth
    state := s.reg }

/-- The output at an edge. -/
def fired (s : ShiftRegister F) : ModulatorOutput F := { s.held with gate := s.gateOut }

/-- `tick`; the beat is not used. -/
def tick (rate : F) (s : ShiftRegister F) : ModulatorOutput F × ShiftRegister F :=
  if le rate (lit 0) then (s.held, s)
  else
    let s := { s with clockPhase := s.clockPhase + s.clockRate / rate }
    if lt s.clockPhase (lit 1) then (s.held, s)
    else
      -- at most one edge in a tick, however fast the clock
      let s := edge { s with clockPhase := s.clockPhase - lit 1 }
      (s.fired, s)

/-- `update`. -/
def update (key : String) (value : F) (s : ShiftRegister F) : ShiftRegister F :=
  match key with
  | "clock_rate" => { s with clockRate := clamp value (lit (1 / 1000)) (lit 1000) }
  | "data" => { s with data := clamp value (lit 0) (lit 1) }
  | "param" => { s with param := clamp value (lit 0) (lit 1) }
  | "depth" => { s with depth := clamp value (lit 0) (lit 1) }
  | _ => s

/-- The virtual functions. -/
def sem (I B : Type*) : ModulatorSem I String (ShiftRegister F) (ModulatorOutput F) B F where
  tick _ _ := tick
  update := update

/-! ## Clock edges -/

/-- `tick` passes both early returns. -/
def clocks (s : ShiftRegister F) (rate : F) : Bool :=
  !le rate (lit 0) && !lt (s.clockPhase + s.clockRate / rate) (lit 1)

/-- The outputs of the ticks with a clock edge, in a run. -/
def edgeOutputs {I B : Type*} :
    List (ModulatorCall I String (ModulatorOutput F) B F) → ShiftRegister F →
      List (ModulatorOutput F)
  | [], _ => []
  | .tick _ _ rate :: calls, s =>
      if s.clocks rate then (s.tick rate).1 :: edgeOutputs calls (s.tick rate).2
      else edgeOutputs calls (s.tick rate).2
  | .update key value :: calls, s => edgeOutputs calls (s.update key value)

/-- A tick with an edge. -/
theorem tick_of_clocks {s : ShiftRegister F} {rate : F} (h : s.clocks rate = true) :
    ∃ phase, s.tick rate =
      ((edge { s with clockPhase := phase }).fired, edge { s with clockPhase := phase }) := by
  rw [clocks, Bool.and_eq_true, Bool.not_eq_true', Bool.not_eq_true'] at h
  refine ⟨s.clockPhase + s.clockRate / rate - lit 1, ?_⟩
  rw [tick, if_neg (by rw [h.1]; exact Bool.false_ne_true)]
  exact if_neg (by rw [h.2]; exact Bool.false_ne_true)

/-- A tick without one leaves all but the phase. -/
theorem tick_of_not_clocks {s : ShiftRegister F} {rate : F} (h : s.clocks rate = false) :
    ∃ phase, (s.tick rate).2 = { s with clockPhase := phase } := by
  rw [tick]
  split
  · exact ⟨s.clockPhase, rfl⟩
  · next hrate =>
      rw [clocks, Bool.eq_false_of_not_eq_true hrate, Bool.not_false, Bool.true_and,
        Bool.not_eq_false'] at h
      refine ⟨s.clockPhase + s.clockRate / rate, ?_⟩
      rw [if_pos h]

/-- `update` sets the four parameters and nothing else. -/
theorem update_eq (key : String) (value : F) (s : ShiftRegister F) :
    ∃ clockRate data param depth,
      s.update key value =
        { s with clockRate := clockRate, data := data, param := param, depth := depth } ∧
      (key ≠ "param" → param = s.param) ∧ (key ≠ "depth" → depth = s.depth) := by
  unfold update
  split
  · exact ⟨_, s.data, s.param, s.depth, rfl, fun _ => rfl, fun _ => rfl⟩
  · exact ⟨s.clockRate, _, s.param, s.depth, rfl, fun _ => rfl, fun _ => rfl⟩
  · exact ⟨s.clockRate, s.data, _, s.depth, rfl, fun h => absurd rfl h, fun _ => rfl⟩
  · exact ⟨s.clockRate, s.data, s.param, _, rfl, fun _ => rfl, fun h => absurd rfl h⟩
  · exact ⟨s.clockRate, s.data, s.param, s.depth, rfl, fun _ => rfl, fun _ => rfl⟩

/-- What an edge shows, `seen`, as a function of a part of the state that is mapped by
    `next` at every edge and untouched between edges. -/
structure EdgeView {V W : Type*} (P : ShiftRegister F → Prop) (part : ShiftRegister F → V)
    (next : V → V) (seen : V → W) (proj : ModulatorOutput F → W) : Prop where
  edge : ∀ s, P s → P s.edge ∧ part s.edge = next (part s)
  phase : ∀ s x, P s → P { s with clockPhase := x } ∧ part { s with clockPhase := x } = part s
  fired : ∀ s, P s → proj s.edge.fired = seen (part s.edge)

/-- The part after some edges. -/
theorem EdgeView.iterate {V W : Type*} {P : ShiftRegister F → Prop} {part : ShiftRegister F → V}
    {next : V → V} {seen : V → W} {proj : ModulatorOutput F → W}
    (h : EdgeView P part next seen proj) {s : ShiftRegister F} (hs : P s) (k : Nat) :
    P (ShiftRegister.edge^[k] s) ∧ part (ShiftRegister.edge^[k] s) = next^[k] (part s) := by
  induction k with
  | zero => exact ⟨hs, rfl⟩
  | succ k ih =>
      obtain ⟨hP, hpart⟩ := h.edge _ ih.1
      rw [Function.iterate_succ_apply', Function.iterate_succ_apply', ← ih.2]
      exact ⟨hP, hpart⟩

/-- The calls leave the part of the state alone between edges. -/
def Undisturbed {V I B : Type*} (P : ShiftRegister F → Prop) (part : ShiftRegister F → V)
    (calls : List (ModulatorCall I String (ModulatorOutput F) B F)) : Prop :=
  ∀ key value, .update key value ∈ calls →
    ∀ s, P s → P (s.update key value) ∧ part (s.update key value) = part s

/-- The outputs at the edges of a run are those of the iterated map. -/
theorem edgeOutputs_eq {V W I B : Type*} {P : ShiftRegister F → Prop} {part : ShiftRegister F → V}
    {next : V → V} {seen : V → W} {proj : ModulatorOutput F → W}
    (h : EdgeView P part next seen proj)
    {calls : List (ModulatorCall I String (ModulatorOutput F) B F)}
    (hcalls : Undisturbed P part calls) {s : ShiftRegister F} (hs : P s) :
    (edgeOutputs calls s).map proj =
      (List.range (edgeOutputs calls s).length).map fun k => seen (next^[k + 1] (part s)) := by
  induction calls generalizing s with
  | nil => rfl
  | cons call calls ih =>
      have hrest : Undisturbed P part calls :=
        fun key value hmem => hcalls key value (List.mem_cons_of_mem _ hmem)
      cases call with
      | update key value =>
          -- no output, and the part is as before
          obtain ⟨hP, hpart⟩ := hcalls key value List.mem_cons_self s hs
          rw [← hpart]
          exact ih hrest hP
      | tick view beat rate =>
          rw [edgeOutputs]
          split
          · next hclocks =>
            -- an edge: its output, then the rest from the register after it
            obtain ⟨x, htick⟩ := tick_of_clocks hclocks
            obtain ⟨hP, hpart⟩ := h.phase s x hs
            obtain ⟨hPe, hpartE⟩ := h.edge _ hP
            rw [htick, List.map_cons, List.length_cons, List.range_succ_eq_map, List.map_cons,
              List.map_map, ih hrest hPe, h.fired _ hP, hpartE, hpart]
            rfl
          · next hquiet =>
            obtain ⟨x, htick⟩ := tick_of_not_clocks (Bool.eq_false_of_not_eq_true hquiet)
            obtain ⟨hP, hpart⟩ := h.phase s x hs
            rw [htick, ← hpart]
            exact ih hrest hP

end ShiftRegister

end Modulator

end NomosRt.Modulator
