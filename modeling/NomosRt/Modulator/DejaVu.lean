/-
  NomosRt.Modulator.DejaVu

  The loop of `stochastic_modulator`.

  A clock event may write the buffers at the write position and always reads them at the
  read position.  `event_spec` says what an event does in terms of two decisions, to
  replay and to freeze.  From `deja_vu` 0.5 on every event replays, at 0.5 none freezes
  and at 1 all do: a draw is always below 1.
-/

import NomosRt.Lib.Trace
import NomosRt.Modulator.Generators
import NomosRt.Modulator.Literals
import NomosRt.Modulator.Phase
import NomosRt.Modulator.Turing

namespace NomosRt.Modulator

open NomosRt.Lib CFloat CMath

/-! ## One event -/

section Event

variable {F : Type*} [CMath F]

namespace Stochastic

/-- A tick at this rate is a clock event. -/
def clocks (rate : F) (s : Stochastic F) : Bool :=
  !le rate (lit 0) && !lt (s.clockPhase + s.rate / rate) s.nextThreshold

/-- The generator behind the draw for the next interval. -/
def randAtReplay (s : Stochastic F) : BitVec 32 := (nextRand (F := F) s.randState).2

/-- The event leaves the buffers alone. -/
def replays (s : Stochastic F) : Bool :=
  lt (lit 0) s.dejaVu &&
    lt (nextRand s.randAtReplay).1 (CFloat.min (s.dejaVu * lit 2) (lit 1))

/-- The generator behind the draw for the replay, if there is one. -/
def randAtFreeze (s : Stochastic F) : BitVec 32 :=
  if lt (lit 0) s.dejaVu then (nextRand (F := F) s.randAtReplay).2 else s.randAtReplay

/-- The event leaves the read position alone. -/
def freezes (s : Stochastic F) : Bool :=
  lt (lit (1 / 2)) s.dejaVu &&
    lt (nextRand s.randAtFreeze).1 (CFloat.max ((s.dejaVu - lit (1 / 2)) * lit 2) (lit 0))

/-- The generator behind both draws. -/
def randAtWrite (s : Stochastic F) : BitVec 32 :=
  if lt (lit (1 / 2)) s.dejaVu then (nextRand (F := F) s.randAtFreeze).2 else s.randAtFreeze

/-- The gate that the event generates. -/
def newGate (s : Stochastic F) : Bool := lt (nextRand s.randAtWrite).1 s.bias

/-- The value that the event generates. -/
def newCv (s : Stochastic F) : F :=
  { s with randState := (nextRand (F := F) s.randAtWrite).2 : Stochastic F }.generateCv.1

/-- The loop behind an event. -/
structure EventSpec (s : Stochastic F) (out : ModulatorOutput F) (s' : Stochastic F) : Prop where
  cvBuf : s'.cvBuf = if s.replays then s.cvBuf else s.cvBuf.set s.writePos s.newCv
  gateBuf : s'.gateBuf = if s.replays then s.gateBuf else s.gateBuf.set s.writePos s.newGate
  writePos : s'.writePos = if s.replays then s.writePos else (s.writePos + 1) % s.length
  readPos : s'.readPos = if s.freezes then s.readPos else (s.readPos + 1) % s.length
  cv : out.cv = s'.cvBuf.getD s.readPos (lit 0) * s.depth
  gate : out.gate = s'.gateBuf.getD s.readPos false
  params : s'.length = s.length ∧ s'.depth = s.depth ∧ s'.dejaVu = s.dejaVu

theorem drawBelow_eq (cond : Bool) (bound : F) (s : Stochastic F) :
    s.drawBelow cond bound =
      (cond && lt (nextRand s.randState).1 bound,
        { s with randState := if cond then (nextRand (F := F) s.randState).2 else s.randState }) := by
  cases cond <;> rfl

/-- The modulator before the buffers are written. -/
def beforeWrite (s : Stochastic F) : Stochastic F :=
  { s with
    clockPhase := s.clockPhase - s.nextThreshold
    nextThreshold := lerp (lit 1) (-log (CFloat.max (nextRand s.randState).1 (lit (1 / 1000000))))
      s.jitter
    randState := s.randAtWrite }

theorem event_eq (s : Stochastic F) :
    s.event =
      let t := if s.replays then s.beforeWrite else s.beforeWrite.written
      let t := { t with cvOut := t.cvBuf.getD t.readPos (lit 0) }
      let u := if s.freezes then t else { t with readPos := (t.readPos + 1) % t.length }
      ({ cvOutput (u.cvOut * u.depth) with gate := t.gateBuf.getD t.readPos false }, u) := by
  rw [event]
  simp only [drawBelow_eq]
  rfl

theorem written_eq (s : Stochastic F) :
    ∃ ρ, s.beforeWrite.written =
      { s.beforeWrite with
        randState := ρ
        gateBuf := s.gateBuf.set s.writePos s.newGate
        cvBuf := s.cvBuf.set s.writePos s.newCv
        writePos := (s.writePos + 1) % s.length } := ⟨_, rfl⟩

theorem event_spec (s : Stochastic F) : EventSpec s s.event.1 s.event.2 := by
  obtain ⟨ρ, hwritten⟩ := written_eq s
  rw [event_eq, hwritten]
  cases hreplays : s.replays <;> cases hfreezes : s.freezes <;>
    exact ⟨by rw [hreplays]; rfl, by rw [hreplays]; rfl, by rw [hreplays]; rfl,
      by rw [hfreezes]; rfl, rfl, rfl, ⟨rfl, rfl, rfl⟩⟩

/-- A clock event of `tick`. -/
theorem tick_spec {rate : F} {s : Stochastic F} (h : s.clocks rate = true) :
    EventSpec s (s.tick rate).1 (s.tick rate).2 := by
  rw [clocks, Bool.and_eq_true, Bool.not_eq_true', Bool.not_eq_true'] at h
  have htick : s.tick rate =
      { s with clockPhase := s.clockPhase + s.rate / rate : Stochastic F }.event := by
    rw [tick, if_neg (Bool.eq_false_iff.mp h.1)]
    exact if_neg (Bool.eq_false_iff.mp h.2)
  rw [htick]
  obtain ⟨hcvBuf, hgateBuf, hwrite, hread, hcv, hgate, hparams⟩ :=
    event_spec { s with clockPhase := s.clockPhase + s.rate / rate : Stochastic F }
  exact ⟨hcvBuf, hgateBuf, hwrite, hread, hcv, hgate, hparams⟩

/-- Any other tick moves the clock at most. -/
theorem tick_held {rate : F} {s : Stochastic F} (h : s.clocks rate = false) :
    ∃ x, (s.tick rate).2 = { s with clockPhase := x } := by
  rw [clocks, Bool.and_eq_false_iff, Bool.not_eq_false', Bool.not_eq_false'] at h
  rw [tick]
  by_cases hrate : le rate (lit 0) = true
  · rw [if_pos hrate]
    exact ⟨s.clockPhase, rfl⟩
  · have hlt : lt (s.clockPhase + s.rate / rate) s.nextThreshold = true := h.resolve_left hrate
    rw [if_neg hrate]
    dsimp only
    rw [if_pos hlt]
    exact ⟨_, rfl⟩

/-! ## The decisions at the extremes -/

theorem replays_of_not_pos {s : Stochastic F} (h : lt (lit 0) s.dejaVu = false) :
    s.replays = false := by
  rw [replays, h, Bool.false_and]

section Order

variable [SingleOrder F]

theorem isSingle_half : IsSingle (1 / 2) := by
  simpa using isSingle_natCast_div (k := 1) (e := 1) (by norm_num) (by decide)

theorem isSingle_one : IsSingle 1 := by
  simpa using isSingle_natCast (k := 1) (by norm_num)

theorem isSingle_zero : IsSingle 0 := by
  simpa using isSingle_natCast (k := 0) (by norm_num)

theorem lit_zero_lt_half : lt (lit 0 : F) (lit (1 / 2)) = true := by
  rw [SingleExact.lt_eq _ _ isSingle_zero isSingle_half]
  norm_num

/-- From 0.5 on every event replays: the bound is at least 1 and a draw is below. -/
theorem replays_of_le {s : Stochastic F} (h : le (lit (1 / 2)) s.dejaVu = true) :
    s.replays = true := by
  have hpos : lt (lit 0) s.dejaVu = true := SingleOrder.lt_of_lt_of_le _ _ _ lit_zero_lt_half h
  have hdouble : le (lit 1) (s.dejaVu * lit 2) = true := by
    have hle := SingleOrder.le_double (1 / 2) s.dejaVu isSingle_half h
    rwa [show (1 / 2 * 2 : ℚ) = 1 by norm_num] at hle
  have hdraw : lt (nextRand s.randAtReplay).1 (lit 1 : F) = true := nextRandom_lt_one _
  rw [replays, hpos, Bool.true_and, CFloat.min]
  split_ifs
  · exact hdraw
  · exact SingleOrder.lt_of_lt_of_le _ _ _ hdraw hdouble

theorem freezes_of_half {s : Stochastic F} (h : s.dejaVu = lit (1 / 2)) : s.freezes = false := by
  rw [freezes, h, SingleExact.lt_eq _ _ isSingle_half isSingle_half]
  simp

/-- At 1 every event freezes: the bound is 1. -/
theorem freezes_of_one {s : Stochastic F} (h : s.dejaVu = lit 1) : s.freezes = true := by
  have hsub : lit 1 - lit (1 / 2) = (lit (1 / 2) : F) := by
    have heq := SingleOrder.sub_eq (F := F) 1 (1 / 2) (by norm_num) isSingle_one isSingle_half
      (by norm_num [isSingle_half])
    rwa [show (1 - 1 / 2 : ℚ) = 1 / 2 by norm_num] at heq
  have hmul : lit (1 / 2) * lit 2 = (lit 1 : F) := by
    have heq := SingleExact.mul_eq (F := F) (1 / 2) 2 (by norm_num) (by norm_num) isSingle_half
      (by simpa using isSingle_natCast (k := 2) (by norm_num)) (by norm_num [isSingle_one])
    rwa [show (1 / 2 * 2 : ℚ) = 1 by norm_num] at heq
  have hmax : CFloat.max (lit 1) (lit 0) = (lit 1 : F) := by
    rw [CFloat.max, SingleExact.lt_eq _ _ isSingle_one isSingle_zero]
    norm_num
  rw [freezes, h, hsub, hmul, hmax, SingleExact.lt_eq _ _ isSingle_half isSingle_one]
  have hdraw : lt (nextRand s.randAtFreeze).1 (lit 1 : F) = true := nextRandom_lt_one _
  rw [hdraw]
  norm_num

theorem freezes_of_not_pos {s : Stochastic F} (h : lt (lit 0) s.dejaVu = false) :
    s.freezes = false := by
  have hhalf : lt (lit (1 / 2)) s.dejaVu = false := by
    rw [← Bool.not_eq_true]
    intro hlt
    have hpos := SingleOrder.lt_of_lt_of_le _ _ _ lit_zero_lt_half (SingleOrder.le_of_lt _ _ hlt)
    rw [h] at hpos
    cases hpos
  rw [freezes, hhalf, Bool.false_and]

end Order

/-! ## Positions -/

/-- The positions and the length are those of the buffers. -/
structure LoopOk (s : Stochastic F) : Prop where
  length_pos : 1 ≤ s.length
  length_le : s.length ≤ kMaxLength
  cvBuf : s.cvBuf.length = kMaxLength
  gateBuf : s.gateBuf.length = kMaxLength
  writePos : s.writePos < kMaxLength
  readPos : s.readPos < kMaxLength

theorem length_seedBuffers (n : Nat) (randState : BitVec 32) :
    (seedBuffers (F := F) n randState).1.length = n ∧
    (seedBuffers (F := F) n randState).2.1.length = n := by
  induction n generalizing randState with
  | zero => exact ⟨rfl, rfl⟩
  | succ n ih =>
      obtain ⟨hcv, hgate⟩ := ih (nextRand (F := F) (nextRand (F := F) randState).2).2
      exact ⟨congrArg Nat.succ hcv, congrArg Nat.succ hgate⟩

theorem loopOk_make : (make : Stochastic F).LoopOk := by
  obtain ⟨hcv, hgate⟩ := length_seedBuffers (F := F) kMaxLength 0xACE1
  have hlength : 1 ≤ 8 ∧ 8 ≤ kMaxLength ∧ 0 < kMaxLength := by decide
  exact ⟨hlength.1, hlength.2.1, hcv, hgate, hlength.2.2, hlength.2.2⟩

omit [CMath F] in
theorem LoopOk.next_lt {s : Stochastic F} (h : s.LoopOk) (pos : Nat) :
    (pos + 1) % s.length < kMaxLength :=
  lt_of_lt_of_le (Nat.mod_lt _ h.length_pos) h.length_le

theorem LoopOk.event {s s' : Stochastic F} {out : ModulatorOutput F} (h : s.LoopOk)
    (hspec : EventSpec s out s') : s'.LoopOk := by
  obtain ⟨hlength, -, -⟩ := hspec.params
  refine ⟨hlength ▸ h.length_pos, hlength ▸ h.length_le, ?_, ?_, ?_, ?_⟩
  · rw [hspec.cvBuf]
    split_ifs
    · exact h.cvBuf
    · rw [List.length_set, h.cvBuf]
  · rw [hspec.gateBuf]
    split_ifs
    · exact h.gateBuf
    · rw [List.length_set, h.gateBuf]
  · rw [hspec.writePos]
    split_ifs
    · exact h.writePos
    · exact h.next_lt s.writePos
  · rw [hspec.readPos]
    split_ifs
    · exact h.readPos
    · exact h.next_lt s.readPos

theorem LoopOk.tick {s : Stochastic F} (h : s.LoopOk) (rate : F) : (s.tick rate).2.LoopOk := by
  cases hclocks : s.clocks rate with
  | true => exact h.event (tick_spec hclocks)
  | false =>
      obtain ⟨x, hx⟩ := tick_held hclocks
      rw [hx]
      exact ⟨h.length_pos, h.length_le, h.cvBuf, h.gateBuf, h.writePos, h.readPos⟩

/-- `update` reaches neither the buffers nor the positions. -/
theorem update_loop (key : String) (value : F) (s : Stochastic F) :
    (s.update key value).cvBuf = s.cvBuf ∧ (s.update key value).gateBuf = s.gateBuf ∧
    (s.update key value).writePos = s.writePos ∧ (s.update key value).readPos = s.readPos := by
  unfold Stochastic.update
  split <;> exact ⟨rfl, rfl, rfl, rfl⟩

theorem update_length {s : Stochastic F} (h : s.LoopOk) (key : String) (value : F) :
    1 ≤ (s.update key value).length ∧ (s.update key value).length ≤ kMaxLength := by
  have hkeep := And.intro h.length_pos h.length_le
  have hclamp : ∀ v : Int, 1 ≤ (clampInt v 1 kMaxLength).toNat ∧
      (clampInt v 1 kMaxLength).toNat ≤ kMaxLength := by
    intro v
    rw [clampInt, kMaxLength]
    split_ifs <;> omega
  unfold Stochastic.update
  split
  any_goals exact hkeep
  exact hclamp _

theorem LoopOk.update {s : Stochastic F} (h : s.LoopOk) (key : String) (value : F) :
    (s.update key value).LoopOk := by
  obtain ⟨hlow, hhigh⟩ := update_length h key value
  obtain ⟨hcvBuf, hgateBuf, hwrite, hread⟩ := update_loop key value s
  exact ⟨hlow, hhigh, hcvBuf ▸ h.cvBuf, hgateBuf ▸ h.gateBuf, hwrite ▸ h.writePos,
    hread ▸ h.readPos⟩

end Stochastic

end Event

/-! ## Runs -/

section Runs

variable {I B F : Type*} [CMath F]

/-- The virtual functions of `stochastic_modulator`. -/
def Stochastic.sem (I B : Type*) {F : Type*} [CMath F] :
    ModulatorSem I String (Stochastic F) (ModulatorOutput F) B F where
  tick _ _ := Stochastic.tick
  update := Stochastic.update

/-- The positions are valid in every state. -/
theorem loopOk_of_reached {as : List (ModulatorCall I String (ModulatorOutput F) B F)}
    {s : Stochastic F}
    (hr : (callMachine (Stochastic.sem I B) Stochastic.make).Reached Machine.free as s) :
    s.LoopOk := by
  refine hr.invariant (I := Stochastic.LoopOk) Stochastic.loopOk_make ?_
  rintro s a s' hs - hstep
  cases a with
  | tick view beat rate =>
      cases hstep
      exact hs.tick rate
  | update key value =>
      cases hstep
      exact hs.update key value

/-- One call, with the pair that it emits at a clock event. -/
def Stochastic.call (s : Stochastic F) :
    ModulatorCall I String (ModulatorOutput F) B F → Option (F × Bool) × Stochastic F
  | .tick _ _ rate =>
      (if s.clocks rate then some ((s.tick rate).1.cv, (s.tick rate).1.gate) else none,
        (s.tick rate).2)
  | .update key value => (none, s.update key value)

/-- The pairs emitted at the clock events of a run. -/
def Stochastic.emitted (s : Stochastic F)
    (as : List (ModulatorCall I String (ModulatorOutput F) B F)) : List (F × Bool) :=
  (Trace.events Stochastic.call s as).filterMap id

namespace Stochastic

/-- The pair at a position, for a depth. -/
def pairAt (s : Stochastic F) (depth : F) (pos : Nat) : F × Bool :=
  (s.cvBuf.getD pos (lit 0) * depth, s.gateBuf.getD pos false)

/-- Between two states the buffers are the same. -/
def SameBuffers (s s' : Stochastic F) : Prop := s'.cvBuf = s.cvBuf ∧ s'.gateBuf = s.gateBuf

/-- States in which every event replays at one depth and moves the read position by `f`. -/
structure Replaying (P : Stochastic F → Prop) (depth : F) (f : Nat → Nat) : Prop where
  depth : ∀ s, P s → s.depth = depth
  replays : ∀ s, P s → s.replays = true
  next : ∀ s, P s → (if s.freezes then s.readPos else (s.readPos + 1) % s.length) = f s.readPos

variable {P : Stochastic F → Prop} {depth : F} {f : Nat → Nat}

/-- A call in such a state: nothing is emitted and the read position stays, or the pair there is
    emitted and it moves. -/
theorem Replaying.call (hP : Replaying P depth f) {s : Stochastic F} (hs : P s)
    (a : ModulatorCall I String (ModulatorOutput F) B F) :
    SameBuffers s (s.call a).2 ∧
    (((s.call a).1 = none ∧ (s.call a).2.readPos = s.readPos) ∨
      ((s.call a).1 = some (s.pairAt depth s.readPos) ∧ (s.call a).2.readPos = f s.readPos)) := by
  cases a with
  | update key value =>
      obtain ⟨hcvBuf, hgateBuf, -, hread⟩ := update_loop key value s
      exact ⟨⟨hcvBuf, hgateBuf⟩, .inl ⟨rfl, hread⟩⟩
  | tick view beat rate =>
      cases hclocks : s.clocks rate with
      | false =>
          obtain ⟨x, hx⟩ := tick_held hclocks
          rw [Stochastic.call, hclocks, hx]
          exact ⟨⟨rfl, rfl⟩, .inl ⟨rfl, rfl⟩⟩
      | true =>
          -- a clock edge: the draw leaves the buffers, so the pair read is the one stored before
          have hspec := tick_spec hclocks
          have hcvBuf := hspec.cvBuf
          have hgateBuf := hspec.gateBuf
          rw [hP.replays s hs] at hcvBuf hgateBuf
          have hpair : ((s.tick rate).1.cv, (s.tick rate).1.gate) = s.pairAt depth s.readPos := by
            rw [hspec.cv, hspec.gate, hcvBuf, hgateBuf, hP.depth s hs]
            rfl
          rw [Stochastic.call, hclocks]
          refine ⟨⟨hcvBuf, hgateBuf⟩, .inr ⟨?_, hspec.readPos.trans (hP.next s hs)⟩⟩
          rw [hpair]
          rfl

/-- The pairs of a run through such states: the positions are the iterates of `f`. -/
theorem Replaying.emitted (hP : Replaying P depth f) {s : Stochastic F}
    {as : List (ModulatorCall I String (ModulatorOutput F) B F)}
    (has : Trace.Along Stochastic.call P s as) {i : Nat} {e : F × Bool}
    (h : (s.emitted as)[i]? = some e) : e = s.pairAt depth (f^[i] s.readPos) := by
  induction as generalizing s i with
  | nil => cases h
  | cons a as ih =>
      obtain ⟨⟨hcvBuf, hgateBuf⟩, hcall⟩ := hP.call has.1 a
      have hsame : ∀ pos, (s.call a).2.pairAt depth pos = s.pairAt depth pos := by
        intro pos
        rw [pairAt, pairAt, hcvBuf, hgateBuf]
      have hcons : s.emitted (a :: as) =
          (s.call a).1.toList ++ (s.call a).2.emitted as := by
        rw [Stochastic.emitted, Trace.events]
        cases (s.call a).1 <;> rfl
      rw [hcons] at h
      -- a silent call leaves the index as it is; one that emits takes up index 0
      rcases hcall with ⟨hnone, hread⟩ | ⟨hsome, hread⟩
      · rw [hnone, Option.toList_none, List.nil_append] at h
        rw [← hread, ← hsame]
        exact ih has.2 h
      · rw [hsome, Option.toList_some, List.singleton_append] at h
        cases i with
        | zero =>
            cases h
            rfl
        | succ i =>
            rw [Function.iterate_succ_apply, ← hread, ← hsame]
            exact ih has.2 h

/-- The next position in a loop of `n` steps. -/
def nextIn (n pos : Nat) : Nat := (pos + 1) % n

theorem nextIn_iterate (n pos i : Nat) : (nextIn n)^[i + 1] pos = (pos + (i + 1)) % n := by
  induction i with
  | zero => rfl
  | succ i ih =>
      rw [Function.iterate_succ_apply', ih, nextIn, Nat.mod_add_mod]
      rfl

/-- Locked: `deja_vu` at 0.5, with a length and a depth. -/
def Locked (n : Nat) (depth : F) (s : Stochastic F) : Prop :=
  s.dejaVu = lit (1 / 2) ∧ s.length = n ∧ s.depth = depth

/-- Frozen: `deja_vu` at 1, with a depth. -/
def Frozen (depth : F) (s : Stochastic F) : Prop := s.dejaVu = lit 1 ∧ s.depth = depth

variable [SingleOrder F]

theorem replaying_locked (n : Nat) (depth : F) : Replaying (Locked n depth) depth (nextIn n) where
  depth s hs := hs.2.2
  replays s hs := by
    apply replays_of_le
    rw [hs.1, SingleOrder.le_eq _ _ isSingle_half isSingle_half]
    simp
  next s hs := by
    rw [freezes_of_half hs.1, nextIn, hs.2.1]
    rfl

theorem replaying_frozen (depth : F) : Replaying (Frozen depth) depth id where
  depth s hs := hs.2
  replays s hs := by
    apply replays_of_le
    rw [hs.1, SingleOrder.le_eq _ _ isSingle_half isSingle_one]
    norm_num
  next s hs := by
    rw [freezes_of_one hs.1]
    rfl

/-- No tick writes the buffers from `deja_vu` 0.5 on. -/
theorem sameBuffers_tick {s : Stochastic F} (h : le (lit (1 / 2)) s.dejaVu = true) (rate : F) :
    SameBuffers s (s.tick rate).2 := by
  cases hclocks : s.clocks rate with
  | false =>
      obtain ⟨x, hx⟩ := tick_held hclocks
      rw [hx]
      exact ⟨rfl, rfl⟩
  | true =>
      have hspec := tick_spec hclocks
      refine ⟨?_, ?_⟩
      · rw [hspec.cvBuf, replays_of_le h]
        rfl
      · rw [hspec.gateBuf, replays_of_le h]
        rfl

end Stochastic

variable [SingleOrder F]

/-- In every state that a run reaches: the positions are valid, and from there on no tick at
    `deja_vu` 0.5 or above writes the buffers, the loop at 0.5 repeats after its length from the
    second event on, and at 1 all events are alike. -/
theorem stochastic_loop_locks_and_freezes
    {as : List (ModulatorCall I String (ModulatorOutput F) B F)} {s : Stochastic F}
    (hr : (callMachine (Stochastic.sem I B) Stochastic.make).Reached Machine.free as s) :
    s.LoopOk ∧
    (le (lit (1 / 2)) s.dejaVu = true → ∀ rate, Stochastic.SameBuffers s (s.tick rate).2) ∧
    (∀ (n : Nat) (depth : F) (calls : List (ModulatorCall I String (ModulatorOutput F) B F)),
      Trace.Along Stochastic.call (Stochastic.Locked n depth) s calls →
      ∀ i, 1 ≤ i → i + n < (s.emitted calls).length →
        (s.emitted calls)[i + n]? = (s.emitted calls)[i]?) ∧
    (∀ (depth : F) (calls : List (ModulatorCall I String (ModulatorOutput F) B F)),
      Trace.Along Stochastic.call (Stochastic.Frozen depth) s calls →
      ∀ e ∈ s.emitted calls, ∀ e' ∈ s.emitted calls, e = e') := by
  refine ⟨loopOk_of_reached hr, Stochastic.sameBuffers_tick, ?_, ?_⟩
  · intro n depth calls halong i hi hlt
    have hpair := fun j hj => (Stochastic.replaying_locked n depth).emitted halong
      (i := j) (List.getElem?_eq_getElem hj)
    -- the first position may lie outside the loop; from the second on they are taken mod `n`
    obtain ⟨i, rfl⟩ := Nat.exists_eq_add_of_le' hi
    have hloop : (Stochastic.nextIn n)^[i + 1 + n] s.readPos =
        (Stochastic.nextIn n)^[i + 1] s.readPos := by
      rw [Nat.add_right_comm, Stochastic.nextIn_iterate, Stochastic.nextIn_iterate,
        Nat.add_right_comm i n 1, ← Nat.add_assoc, Nat.add_mod_right]
    rw [List.getElem?_eq_getElem hlt, List.getElem?_eq_getElem (by omega), hpair _ hlt,
      hpair (i + 1) (by omega), hloop]
  · intro depth calls halong e he e' he'
    obtain ⟨i, hi⟩ := List.mem_iff_getElem?.mp he
    obtain ⟨j, hj⟩ := List.mem_iff_getElem?.mp he'
    rw [(Stochastic.replaying_frozen depth).emitted halong hi,
      (Stochastic.replaying_frozen depth).emitted halong hj, Function.iterate_id,
      Function.iterate_id]

end Runs

section Exact

attribute [local instance] exactMath

theorem singleOrder_exactMath : SingleOrder ℚ where
  toSingleExact := singleExact_exactFloat
  le_eq _ _ _ _ := rfl
  le_of_lt _ _ h := decide_eq_true (of_decide_eq_true h).le
  lt_of_lt_of_le _ _ _ hab hbc :=
    decide_eq_true (lt_of_lt_of_le (of_decide_eq_true hab) (of_decide_eq_true hbc))
  le_double _ _ _ h :=
    decide_eq_true (mul_le_mul_of_nonneg_right (of_decide_eq_true h) zero_le_two)
  sub_eq _ _ _ _ _ _ := rfl

/-- A locked loop of two steps. -/
def lockedPair : Stochastic ℚ :=
  ((Stochastic.make.update "deja_vu" (1 / 2)).update "length" 2 : Stochastic ℚ)

/-- Five ticks at the rate of the clock. -/
def fiveTicks : List (ModulatorCall Unit String (ModulatorOutput ℚ) Unit ℚ) :=
  List.replicate 5 (.tick (fun _ => none) () 2)

instance (n : Nat) (depth : ℚ) : DecidablePred (Stochastic.Locked n depth) :=
  fun _ => inferInstanceAs (Decidable (_ ∧ _ ∧ _))

theorem stochastic_loop_locks_pair :
    (callMachine (Stochastic.sem Unit Unit) Stochastic.make).Reached Machine.free
      [.update "deja_vu" (1 / 2), .update "length" 2] lockedPair ∧
    Trace.Along Stochastic.call (Stochastic.Locked 2 1) lockedPair fiveTicks ∧
    (lockedPair.emitted fiveTicks)[3]? = (lockedPair.emitted fiveTicks)[1]? ∧
    (lockedPair.emitted fiveTicks)[1]? ≠ (lockedPair.emitted fiveTicks)[2]? := by
  have horder := singleOrder_exactMath
  have hr : (callMachine (Stochastic.sem Unit Unit) Stochastic.make).Reached Machine.free
      [.update "deja_vu" (1 / 2), .update "length" 2] lockedPair :=
    .step (.step .start trivial rfl) trivial rfl
  have halong : Trace.Along Stochastic.call (Stochastic.Locked 2 1) lockedPair fiveTicks := by
    decide +kernel
  refine ⟨hr, halong, ?_, ?_⟩
  · exact (stochastic_loop_locks_and_freezes hr).2.2.1 2 1 fiveTicks halong 1 (le_refl 1)
      (by decide +kernel)
  · decide +kernel

end Exact

end NomosRt.Modulator
