/-
  NomosRt.Modulator.Clocks

  What a history of clock edges makes of `divine_cmos_modulator` and
  `squid_axon_modulator`.

  A tick is an edge when the gate of the clock source has risen since the tick before, or
  an edge was armed since then; however often it was armed, it is one edge.  `edges` finds
  the edges of a history without a look at the modulator.

  The two counters of `divine_cmos_modulator` count them.  `squid_axon_modulator` shows its
  last four mixes, and a mix depends on the past through the one four edges before it: the
  pipeline is four recurrences that take turns.
-/

import NomosRt.Modulator.Circuits
import NomosRt.Modulator.Edges

namespace NomosRt.Modulator

open NomosRt.Lib CFloat CMath

/-! ## Edges of a history -/

section Edges

variable {B F : Type*} [CMath F]

/-- The gate of a source at the last tick that found the source; low before. -/
def heldGate (src : String) (as : List (ModulatorCall String String (ModulatorOutput F) B F)) :
    Bool :=
  as.foldl (fun last a =>
    match a with
    | .tick view _ _ =>
        match readSource view src with
        | some out => out.gate
        | none => last
    | .update _ _ => last) false

variable (gate : List (ModulatorCall String String (ModulatorOutput F) B F) → Bool) (key : String)

/-- Call `i` of a history is a tick and a clock edge; `gate` is the gate at the last tick of a
    history and `key` arms edges. -/
def edgeAt (as : List (ModulatorCall String String (ModulatorOutput F) B F)) (i : Nat) : Bool :=
  match as[i]? with
  | some (.tick _ _ _) =>
      (gate (as.take (i + 1)) && !gate (as.take i)) || armedSince key (as.take i)
  | _ => false

/-- The clock edges of a history. -/
def edges (as : List (ModulatorCall String String (ModulatorOutput F) B F)) : List Nat :=
  (List.range as.length).filter (edgeAt gate key as)

variable (as : List (ModulatorCall String String (ModulatorOutput F) B F))

theorem armedSince_tick (view : OutputView F) (beat : B) (rate : F) :
    armedSince key (as ++ [.tick view beat rate]) = false := by
  rw [armedSince, List.foldl_append]
  rfl

omit [CMath F] in
theorem heldGate_tick (src : String) (view : OutputView F) (beat : B) (rate : F) :
    heldGate src (as ++ [.tick view beat rate]) =
      match readSource view src with
      | some out => out.gate
      | none => heldGate src as := by
  rw [heldGate, List.foldl_append]
  rfl

omit [CMath F] in
theorem heldGate_update (src k : String) (value : F) :
    heldGate src (as ++ [.update k value]) = heldGate src as := by
  rw [heldGate, List.foldl_append]
  rfl

/-- What comes later does not change an edge. -/
theorem edgeAt_append {i : Nat} (hi : i < as.length)
    (bs : List (ModulatorCall String String (ModulatorOutput F) B F)) :
    edgeAt gate key (as ++ bs) i = edgeAt gate key as i := by
  rw [edgeAt, edgeAt, List.getElem?_append_left hi, List.take_append_of_le_length hi.le,
    List.take_append_of_le_length hi]

theorem edges_append (a : ModulatorCall String String (ModulatorOutput F) B F) :
    edges gate key (as ++ [a]) =
      edges gate key as ++ if edgeAt gate key (as ++ [a]) as.length then [as.length] else [] := by
  have hold : (List.range as.length).filter (edgeAt gate key (as ++ [a])) = edges gate key as :=
    List.filter_congr fun i hi => edgeAt_append gate key as (List.mem_range.mp hi) [a]
  rw [edges, List.length_append, List.length_singleton, List.range_succ, List.filter_append, hold]
  cases hedge : edgeAt gate key (as ++ [a]) as.length <;> simp [hedge]

theorem edgeAt_tick (view : OutputView F) (beat : B) (rate : F) :
    edgeAt gate key (as ++ [.tick view beat rate]) as.length =
      ((gate (as ++ [.tick view beat rate]) && !gate as) || armedSince key as) := by
  have hget : (as ++ [ModulatorCall.tick view beat rate])[as.length]? =
      some (.tick view beat rate) := by simp
  have htake : (as ++ [ModulatorCall.tick view beat rate]).take (as.length + 1) =
      as ++ [.tick view beat rate] := List.take_of_length_le (by simp)
  rw [edgeAt, hget, htake, List.take_left]

theorem edges_update (k : String) (value : F) :
    edges gate key (as ++ [.update k value]) = edges gate key as := by
  have hno : edgeAt gate key (as ++ [.update k value]) as.length = false := by
    rw [edgeAt]
    simp
  rw [edges_append, hno]
  simp

end Edges

/-! ## `divine_cmos_modulator` -/

section Divine

variable {B F : Type*} [CMath F]

/-- The virtual functions of `divine_cmos_modulator`. -/
def DivineCmos.sem (B : Type*) {F : Type*} [CMath F] :
    ModulatorSem String String (DivineCmos F) (ModulatorOutput F) B F where
  tick view _ := DivineCmos.tick view
  update := DivineCmos.update

/-- A clock against the history: it counts the edges modulo sixteen. -/
structure CmosClock.Counts (c : CmosClock) (src key : String)
    (as : List (ModulatorCall String String (ModulatorOutput F) B F)) : Prop where
  src_eq : c.src = src
  prev : c.prev = heldGate src as
  pending : c.pending = armedSince key as
  counter : c.counter = BitVec.ofNat 8 ((edges (heldGate src) key as).length % 16)

variable {c : CmosClock} {src key : String}
  {as : List (ModulatorCall String String (ModulatorOutput F) B F)}

theorem ofNat_succ_and_mask (n : Nat) :
    (BitVec.ofNat 8 (n % 16) + 1) &&& 0x0F = BitVec.ofNat 8 ((n + 1) % 16) := by
  have hmod : (n + 1) % 16 = (n % 16 + 1) % 16 := by omega
  have hlt : n % 16 < 16 := Nat.mod_lt _ (by decide)
  rw [hmod]
  generalize n % 16 = m at hlt
  interval_cases m <;> rfl

/-- The gate a tick sees. -/
def CmosClock.gate (view : OutputView F) (c : CmosClock) : Bool :=
  match readSource view c.src with
  | some out => out.gate
  | none => c.prev

omit [CMath F] in
theorem CmosClock.tick_eq (view : OutputView F) (c : CmosClock) :
    c.tick view =
      if (c.gate view && !c.prev) || c.pending then
        { c with counter := (c.counter + 1) &&& 0x0F, pending := false, prev := c.gate view }
      else { c with prev := c.gate view } := rfl

theorem counts_tick (h : c.Counts src key as) (view : OutputView F) (beat : B) (rate : F) :
    (c.tick view).Counts src key (as ++ [.tick view beat rate]) := by
  have hgate : c.gate view = heldGate src (as ++ [.tick view beat rate]) := by
    rw [heldGate_tick, CmosClock.gate, h.src_eq, h.prev]
  have hedge := edgeAt_tick (heldGate src) key as view beat rate
  rw [CmosClock.tick_eq, hgate, h.prev, h.pending, ← hedge]
  cases hat : edgeAt (heldGate src) key (as ++ [.tick view beat rate]) as.length with
  | true =>
      refine ⟨h.src_eq, rfl, (armedSince_tick ..).symm, ?_⟩
      rw [edges_append, hat]
      simp only [if_true, List.length_append, List.length_singleton, h.counter]
      exact ofNat_succ_and_mask _
  | false =>
      rw [hat, eq_comm, Bool.or_eq_false_iff] at hedge
      refine ⟨h.src_eq, rfl, ?_, ?_⟩
      · rw [armedSince_tick]
        exact hedge.2
      · rw [edges_append, hat]
        simpa using h.counter

theorem counts_update (h : c.Counts src key as) {c' : CmosClock} {k : String} {value : F}
    (hsrc : c'.src = c.src) (hprev : c'.prev = c.prev) (hcounter : c'.counter = c.counter)
    (hpending : c'.pending = (c.pending || (decide (k = key) && lt (lit (1 / 2)) value))) :
    c'.Counts src key (as ++ [.update k value]) := by
  refine ⟨hsrc.trans h.src_eq, ?_, ?_, ?_⟩
  · rw [hprev, heldGate_update]
    exact h.prev
  · rw [hpending, armedSince_update, h.pending]
  · rw [hcounter, edges_update]
    exact h.counter

variable {src1 src2 : String}

/-- Both clocks count. -/
theorem counts_reached {s : DivineCmos F}
    (hr : (callMachine (DivineCmos.sem B) (DivineCmos.make src1 src2)).Reached Machine.free as s) :
    s.clock1.Counts src1 "clock1_tick" as ∧ s.clock2.Counts src2 "clock2_tick" as := by
  induction hr with
  | start => exact ⟨⟨rfl, rfl, rfl, rfl⟩, ⟨rfl, rfl, rfl, rfl⟩⟩
  | @step as s a s' _ _ hstep ih =>
      cases a with
      | tick view beat rate =>
          cases hstep
          exact ⟨counts_tick ih.1 view beat rate, counts_tick ih.2 view beat rate⟩
      | update k value =>
          cases hstep
          show (s.update k value).clock1.Counts _ _ _ ∧ (s.update k value).clock2.Counts _ _ _
          unfold DivineCmos.update
          split
          case h_6 | h_7 =>
              split_ifs with hhigh
              · exact ⟨counts_update ih.1 rfl rfl rfl (by rw [hhigh]; simp),
                  counts_update ih.2 rfl rfl rfl (by rw [hhigh]; simp)⟩
              · rw [Bool.not_eq_true] at hhigh
                exact ⟨counts_update ih.1 rfl rfl rfl (by rw [hhigh]; simp),
                  counts_update ih.2 rfl rfl rfl (by rw [hhigh]; simp)⟩
          all_goals
            exact ⟨counts_update ih.1 rfl rfl rfl (by simp_all),
              counts_update ih.2 rfl rfl rfl (by simp_all)⟩

theorem testBit_mod_sixteen (n i : Nat) :
    (BitVec.ofNat 8 (n % 16)).getLsbD i = (decide (i < 4) && n.testBit i) := by
  have hpow : (16 : Nat) = 2 ^ 4 := rfl
  rw [BitVec.getLsbD_ofNat, hpow, Nat.testBit_mod_two_pow]
  by_cases hi : i < 4
  · simp [hi, show i < 8 by omega]
  · simp [hi]

/-- The bits a tick shows, from the two counters. -/
theorem divine_bits {s : DivineCmos F} {view : OutputView F} {n₁ n₂ : Nat}
    (h₁ : (s.clock1.tick view).counter = BitVec.ofNat 8 (n₁ % 16))
    (h₂ : (s.clock2.tick view).counter = BitVec.ofNat 8 (n₂ % 16)) (rate : F) (i : Nat) :
    (s.tick view rate).1.state.getLsbD i = (decide (i < 4) && (n₁.testBit i ^^ n₂.testBit i)) := by
  show ((((s.clock1.tick view).counter ^^^ (s.clock2.tick view).counter) &&& 0x0F).setWidth
    32).getLsbD i = _
  have hmask : (0x0F : BitVec 8).getLsbD i = decide (i < 4) := by
    have hfifteen : (0x0F : BitVec 8) = BitVec.ofNat 8 (15 % 16) := rfl
    rw [hfifteen, testBit_mod_sixteen]
    by_cases hi : i < 4
    · interval_cases i <;> rfl
    · simp [hi]
  rw [BitVec.getLsbD_setWidth, BitVec.getLsbD_and, BitVec.getLsbD_xor, h₁, h₂,
    testBit_mod_sixteen, testBit_mod_sixteen, hmask]
  by_cases hi : i < 4
  · simp [hi, show i < 32 by omega]
  · simp [hi]

theorem gate_eq_bit (x : BitVec 8) :
    decide (x &&& 1 ≠ 0) = x.getLsbD 0 ∧ decide (x &&& 2 ≠ 0) = x.getLsbD 1 := by
  revert x
  decide

omit [CMath F] in
theorem heldGate_unpatched (as : List (ModulatorCall String String (ModulatorOutput F) B F)) :
    heldGate "" as = false := by
  induction as using List.reverseRecOn with
  | nil => rfl
  | append_singleton as a ih =>
      cases a with
      | tick view beat rate =>
          rw [heldGate_tick]
          exact ih
      | update k value =>
          rw [heldGate_update]
          exact ih

theorem armedSince_eq_false {as : List (ModulatorCall String String (ModulatorOutput F) B F)}
    (h : ∀ value, .update key value ∈ as → lt (lit (1 / 2)) value = false) :
    armedSince key as = false := by
  induction as using List.reverseRecOn with
  | nil => rfl
  | append_singleton as a ih =>
      cases a with
      | tick view beat rate => exact armedSince_tick ..
      | update k value =>
          rw [armedSince_update, ih fun v hv => h v (List.mem_append_left _ hv), Bool.false_or]
          by_cases hk : k = key
          · rw [hk] at h
            rw [h value (by simp)]
            exact Bool.and_false _
          · simp [hk]

/-- A clock that is not patched and not armed has no edges. -/
theorem edges_eq_nil {as : List (ModulatorCall String String (ModulatorOutput F) B F)}
    (h : ∀ value, .update key value ∈ as → lt (lit (1 / 2)) value = false) :
    edges (heldGate "") key as = [] := by
  refine List.filter_eq_nil_iff.mpr fun i _ => ?_
  have harmed : armedSince key (as.take i) = false :=
    armedSince_eq_false fun v hv => h v (List.mem_of_mem_take hv)
  rw [edgeAt, heldGate_unpatched, heldGate_unpatched, harmed]
  split <;> simp

/-- In every run bit `i` of what `divine_cmos_modulator` shows is bit `i` of the number of edges of
    the first clock, exclusive or that of the second: it divides by `2 ^ (i + 1)`.  Without a second
    clock it is that of the first alone. -/
theorem divine_cmos_divides {s : DivineCmos F}
    (hr : (callMachine (DivineCmos.sem B) (DivineCmos.make src1 src2)).Reached Machine.free as s)
    (view : OutputView F) (beat : B) (rate : F) :
    let n₁ := (edges (heldGate src1) "clock1_tick" (as ++ [.tick view beat rate])).length
    let n₂ := (edges (heldGate src2) "clock2_tick" (as ++ [.tick view beat rate])).length
    let out := (s.tick view rate).1
    (∀ i, out.state.getLsbD i = (decide (i < 4) && (n₁.testBit i ^^ n₂.testBit i))) ∧
      out.gate = (n₁.testBit 0 ^^ n₂.testBit 0) ∧ out.gate2 = (n₁.testBit 1 ^^ n₂.testBit 1) ∧
      (src2 = "" → (∀ value, .update "clock2_tick" value ∈ as → lt (lit (1 / 2)) value = false) →
        n₂ = 0) := by
  intro n₁ n₂ out
  obtain ⟨h₁, h₂⟩ := counts_reached hr
  have hbits := divine_bits (counts_tick h₁ view beat rate).counter
    (counts_tick h₂ view beat rate).counter rate
  have hlow : ∀ i < 4, ((((s.clock1.tick view).counter ^^^ (s.clock2.tick view).counter) &&&
      0x0F) : BitVec 8).getLsbD i = (n₁.testBit i ^^ n₂.testBit i) := by
    intro i hi
    have hbit : (s.tick view rate).1.state.getLsbD i = _ := BitVec.getLsbD_setWidth ..
    rw [hbits i] at hbit
    simpa [hi, show i < 32 by omega] using hbit.symm
  refine ⟨hbits, ?_, ?_, ?_⟩
  · rw [← hlow 0 (by decide)]
    exact (gate_eq_bit _).1
  · rw [← hlow 1 (by decide)]
    exact (gate_eq_bit _).2
  · rintro rfl harmed
    refine congrArg List.length (edges_eq_nil fun value hvalue => ?_)
    exact harmed value (by simpa using hvalue)

end Divine

section DivineWitness

attribute [local instance] exactMath

/-- The first clock rises at the second tick, and an edge of it is armed before the third, twice. -/
def threeTicks : List (ModulatorCall String String (ModulatorOutput ℚ) Unit ℚ) :=
  [.tick noOutputs () 1, .tick gatesUp () 1, .update "clock1_tick" 1, .update "clock1_tick" 1]

theorem divine_cmos_divides_two : ∃ s,
    (callMachine (DivineCmos.sem Unit) (DivineCmos.make "clk" "" : DivineCmos ℚ)).Reached
      Machine.free threeTicks s ∧
    (edges (heldGate "clk") "clock1_tick" (threeTicks ++ [.tick gatesUp () 1])).length = 2 ∧
    (s.tick gatesUp 1).1.gate = false ∧ (s.tick gatesUp 1).1.gate2 = true := by
  have hr : ∃ s, (callMachine (DivineCmos.sem Unit)
      (DivineCmos.make "clk" "" : DivineCmos ℚ)).Reached Machine.free threeTicks s :=
    ⟨_, .step (.step (.step (.step .start trivial rfl) trivial rfl) trivial rfl) trivial rfl⟩
  obtain ⟨s, hs⟩ := hr
  have hedges : edges (heldGate "clk") "clock1_tick" (threeTicks ++ [.tick gatesUp () 1]) = [1, 4] := by
    decide +kernel
  have hnone : edges (heldGate "") "clock2_tick" (threeTicks ++ [.tick gatesUp () 1]) = [] := by
    decide +kernel
  obtain ⟨-, hgate, hgate2, -⟩ := divine_cmos_divides hs gatesUp () 1
  rw [hedges, hnone] at hgate hgate2
  exact ⟨s, hs, congrArg List.length hedges, hgate, hgate2⟩

end DivineWitness

/-! ## `squid_axon_modulator` -/

section Squid

variable {B F : Type*} [CMath F]

/-- The virtual functions of `squid_axon_modulator`. -/
def SquidAxon.sem (B : Type*) {F : Type*} [CMath F] :
    ModulatorSem String String (SquidAxon F) (ModulatorOutput F) B F where
  tick view _ _ := SquidAxon.tick view
  update := SquidAxon.update

/-- The mix with OUT4 given; it looks at the parameters and not at the stages. -/
def SquidAxon.mixFrom (view : OutputView F) (s : SquidAxon F) (out4 : F) : F :=
  let in1 := readCvSrc view s.in1Src s.in1
  let in2 := readCvSrc view s.in2Src s.in2
  let in3 := if !s.in3Patched && s.in3Src = "" then out4 else readCvSrc view s.in3Src s.in3
  clamp (in1 + in2 + in3 + s.nlFeedback out4 + s.linFb * out4) (lit 0) (lit 1)

theorem SquidAxon.mix_eq (view : OutputView F) (s : SquidAxon F) :
    s.mix view = s.mixFrom view (s.stages.getD 3 (lit 0)) := rfl

/-- The modulator behind a history. -/
def SquidAxon.after (s : SquidAxon F)
    (as : List (ModulatorCall String String (ModulatorOutput F) B F)) : SquidAxon F :=
  as.foldl (fun s a =>
    match a with
    | .tick view _ _ => (s.tick view).2
    | .update key value => s.update key value) s

/-- The gate of a source at the last tick. -/
def tickGate (src : String) (as : List (ModulatorCall String String (ModulatorOutput F) B F)) :
    Bool :=
  lastGate (fun view => readGateSrc view src) as

omit [CMath F] in
theorem tickGate_tick (src : String)
    (as : List (ModulatorCall String String (ModulatorOutput F) B F)) (view : OutputView F)
    (beat : B) (rate : F) :
    tickGate src (as ++ [.tick view beat rate]) = readGateSrc view src :=
  lastGate_tick ..

omit [CMath F] in
theorem tickGate_update (src : String)
    (as : List (ModulatorCall String String (ModulatorOutput F) B F)) (key : String) (value : F) :
    tickGate src (as ++ [.update key value]) = tickGate src as :=
  lastGate_update ..

/-- OUT1 behind each clock edge of a history. -/
def SquidAxon.values (s : SquidAxon F)
    (as : List (ModulatorCall String String (ModulatorOutput F) B F)) : List F :=
  (edges (tickGate s.clockSrc) "clock_tick" as).map fun p =>
    (s.after (as.take (p + 1))).stages.getD 0 (lit 0)

/-- The value `k` places before the last, and zero before the first. -/
def delayed (k : Nat) (xs : List F) : F := xs.reverse.getD k (lit 0)

/-- The last four values, the newest first. -/
def lastFour (xs : List F) : List F := (xs.reverse ++ List.replicate 4 (lit 0)).take 4

theorem lastFour_getD (xs : List F) {j : Nat} (hj : j < 4) :
    (lastFour xs).getD j (lit 0) = delayed j xs := by
  simp only [lastFour, delayed, List.getD_eq_getElem?_getD, List.getElem?_take_of_lt hj,
    List.getElem?_append]
  split_ifs with hlt
  · rfl
  · rw [List.getElem?_eq_none (not_lt.mp hlt), List.getElem?_replicate]
    split_ifs <;> rfl

theorem lastFour_snoc (xs : List F) (x : F) :
    lastFour (xs ++ [x]) = (x :: lastFour xs).take 4 := by
  rw [lastFour, lastFour, List.reverse_append, List.reverse_singleton, List.singleton_append,
    List.cons_append, List.take_succ_cons, List.take_succ_cons, List.take_take]
  rfl

variable (start : SquidAxon F) (as : List (ModulatorCall String String (ModulatorOutput F) B F))

theorem SquidAxon.after_tick (view : OutputView F) (beat : B) (rate : F) :
    start.after (as ++ [.tick view beat rate]) = ((start.after as).tick view).2 := by
  rw [after, List.foldl_append]
  rfl

theorem SquidAxon.after_update (key : String) (value : F) :
    start.after (as ++ [.update key value]) = (start.after as).update key value := by
  rw [after, List.foldl_append]
  rfl

/-- A call adds OUT1 behind it if it is an edge. -/
theorem SquidAxon.values_append (a : ModulatorCall String String (ModulatorOutput F) B F) :
    start.values (as ++ [a]) =
      start.values as ++
        if edgeAt (tickGate start.clockSrc) "clock_tick" (as ++ [a]) as.length then
          [(start.after (as ++ [a])).stages.getD 0 (lit 0)] else [] := by
  have hold : (edges (tickGate start.clockSrc) "clock_tick" as).map
      (fun p => (start.after ((as ++ [a]).take (p + 1))).stages.getD 0 (lit 0)) =
        start.values as := by
    refine List.map_congr_left fun p hp => ?_
    have hlt : p < as.length := List.mem_range.mp (List.mem_filter.mp hp).1
    rw [List.take_append_of_le_length hlt]
  rw [values, edges_append, List.map_append, hold]
  split_ifs
  · have htake : (as ++ [a]).take (as.length + 1) = as ++ [a] :=
      List.take_of_length_le (by simp)
    rw [List.map_singleton, htake]
  · rfl

theorem SquidAxon.values_update (key : String) (value : F) :
    start.values (as ++ [.update key value]) = start.values as := by
  have hno : edgeAt (tickGate start.clockSrc) "clock_tick" (as ++ [.update key value]) as.length =
      false := by
    rw [edgeAt]
    simp
  rw [values_append, hno]
  simp

/-- The modulator against the history. -/
structure SquidAxon.Shifts (s : SquidAxon F) : Prop where
  clockSrc : s.clockSrc = start.clockSrc
  prev : s.clockPrev = tickGate start.clockSrc as
  pending : s.clockPending = armedSince "clock_tick" as
  stages : s.stages = lastFour (start.values as)
  counter : s.counter = BitVec.ofNat 32 ((start.values as).length % 4)

variable {start as} {s : SquidAxon F}

theorem ofNat_succ_and_three (n : Nat) :
    (BitVec.ofNat 32 (n % 4) + 1) &&& 3 = BitVec.ofNat 32 ((n + 1) % 4) := by
  have hmod : (n + 1) % 4 = (n % 4 + 1) % 4 := by omega
  have hlt : n % 4 < 4 := Nat.mod_lt _ (by decide)
  rw [hmod]
  generalize n % 4 = m at hlt
  interval_cases m <;> rfl

/-- A tick is an edge where the history says so. -/
theorem SquidAxon.edge_eq (h : Shifts start as s) (view : OutputView F) (beat : B) (rate : F) :
    ((readGateSrc view s.clockSrc && !s.clockPrev) || s.clockPending) =
      edgeAt (tickGate start.clockSrc) "clock_tick" (as ++ [.tick view beat rate]) as.length := by
  rw [edgeAt_tick, h.clockSrc, h.prev, h.pending, tickGate_tick]

theorem SquidAxon.tick_snd (view : OutputView F) (s : SquidAxon F) :
    (s.tick view).2 =
      if (readGateSrc view s.clockSrc && !s.clockPrev) || s.clockPending then
        { s with
          clockPrev := readGateSrc view s.clockSrc
          clockPending := false
          stages := (s.mix view :: s.stages).take 4
          counter := (s.counter + 1) &&& 3 }
      else { s with clockPrev := readGateSrc view s.clockSrc, clockPending := false } := rfl

/-- The mixes of a history with this tick. -/
theorem SquidAxon.values_tick (h : Shifts start as (start.after as)) (view : OutputView F) (beat : B)
    (rate : F) :
    start.values (as ++ [.tick view beat rate]) =
      start.values as ++
        if edgeAt (tickGate start.clockSrc) "clock_tick" (as ++ [.tick view beat rate]) as.length then
          [(start.after as).mixFrom view (delayed 3 (start.values as))] else [] := by
  rw [values_append]
  congr 1
  split_ifs with hedge
  · rw [after_tick, tick_snd, edge_eq h view beat rate, if_pos hedge, mix_eq, h.stages,
      lastFour_getD _ (by decide)]
    rfl
  · rfl

theorem SquidAxon.shifts_tick (h : Shifts start as (start.after as)) (view : OutputView F) (beat : B)
    (rate : F) :
    Shifts start (as ++ [.tick view beat rate]) (start.after (as ++ [.tick view beat rate])) := by
  have hvalues := values_tick h view beat rate
  rw [after_tick, tick_snd, edge_eq h view beat rate]
  split_ifs with hedge
  · rw [if_pos hedge] at hvalues
    refine ⟨h.clockSrc, ?_, (armedSince_tick ..).symm, ?_, ?_⟩
    · rw [tickGate_tick, h.clockSrc]
    · rw [hvalues, lastFour_snoc, mix_eq, h.stages, lastFour_getD _ (by decide)]
    · rw [hvalues, List.length_append, List.length_singleton, h.counter]
      exact ofNat_succ_and_three _
  · rw [if_neg hedge, List.append_nil] at hvalues
    refine ⟨h.clockSrc, ?_, (armedSince_tick ..).symm, ?_, ?_⟩
    · rw [tickGate_tick, h.clockSrc]
    · rw [hvalues]
      exact h.stages
    · rw [hvalues]
      exact h.counter

theorem SquidAxon.shifts_update (h : Shifts start as (start.after as)) (key : String) (value : F) :
    Shifts start (as ++ [.update key value]) (start.after (as ++ [.update key value])) := by
  have hkeeps : ∀ s' : SquidAxon F, s'.clockSrc = (start.after as).clockSrc →
      s'.clockPrev = (start.after as).clockPrev → s'.stages = (start.after as).stages →
      s'.counter = (start.after as).counter →
      s'.clockPending = ((start.after as).clockPending ||
        (decide (key = "clock_tick") && lt (lit (1 / 2)) value)) →
      Shifts start (as ++ [.update key value]) s' := by
    intro s' hsrc hprev hstages hcounter hpending
    refine ⟨hsrc.trans h.clockSrc, ?_, ?_, ?_, ?_⟩
    · rw [hprev, tickGate_update]
      exact h.prev
    · rw [hpending, armedSince_update, h.pending]
    · rw [hstages, values_update]
      exact h.stages
    · rw [hcounter, values_update]
      exact h.counter
  rw [after_update]
  unfold update
  split
  case h_7 =>
      split_ifs with hhigh
      · exact hkeeps _ rfl rfl rfl rfl (by rw [hhigh]; simp)
      · rw [Bool.not_eq_true] at hhigh
        exact hkeeps _ rfl rfl rfl rfl (by rw [hhigh]; simp)
  all_goals exact hkeeps _ rfl rfl rfl rfl (by simp_all)

theorem SquidAxon.shifts_after (clockSrc in1Src in2Src in3Src : String)
    (as : List (ModulatorCall String String (ModulatorOutput F) B F)) :
    Shifts (make clockSrc in1Src in2Src in3Src) as
      ((make clockSrc in1Src in2Src in3Src).after as) := by
  induction as using List.reverseRecOn with
  | nil => exact ⟨rfl, rfl, rfl, rfl, rfl⟩
  | append_singleton as a ih =>
      cases a with
      | tick view beat rate => exact shifts_tick ih view beat rate
      | update key value => exact shifts_update ih key value

/-- In every run `squid_axon_modulator` shows its last four mixes, and a clock edge adds one that
    depends on the past through the mix four edges before it; any other tick adds none. -/
theorem squid_axon_recurrence (clockSrc in1Src in2Src in3Src : String)
    (as : List (ModulatorCall String String (ModulatorOutput F) B F)) (view : OutputView F)
    (beat : B) (rate : F) :
    let start : SquidAxon F := SquidAxon.make clockSrc in1Src in2Src in3Src
    let xs := start.values (as ++ [.tick view beat rate])
    let out := ((start.after as).tick view).1
    (∀ j < 4, out.outputs.getD j (lit 0) = delayed j xs) ∧
      out.cv = delayed 0 xs ∧ out.aux = delayed 3 xs ∧
      out.state = BitVec.ofNat 32 (xs.length % 4) ∧
      xs = start.values as ++
        if edgeAt (tickGate clockSrc) "clock_tick" (as ++ [.tick view beat rate]) as.length then
          [(start.after as).mixFrom view (delayed 3 (start.values as))] else [] := by
  intro start xs out
  have hshifts : SquidAxon.Shifts start as (start.after as) := SquidAxon.shifts_after ..
  have hnext := SquidAxon.shifts_tick hshifts view beat rate
  have hstages := hnext.stages
  rw [SquidAxon.after_tick] at hstages
  have hcounter := hnext.counter
  rw [SquidAxon.after_tick] at hcounter
  have hout : ∀ j < 4, ((start.after as).tick view).2.stages.getD j (lit 0) = delayed j xs := by
    intro j hj
    rw [hstages, lastFour_getD _ hj]
  refine ⟨fun j hj => ?_, hout 0 (by decide), hout 3 (by decide), hcounter,
    SquidAxon.values_tick hshifts view beat rate⟩
  rw [← hout j hj]
  show (outputsOf ((start.after as).tick view).2.stages).getD j (lit 0) = _
  have hlen : ((start.after as).tick view).2.stages.length = 4 := by
    rw [hstages, lastFour, List.length_take, List.length_append, List.length_replicate]
    omega
  rw [outputsOf, List.getD_append _ _ _ _ (by omega)]

end Squid

end NomosRt.Modulator
