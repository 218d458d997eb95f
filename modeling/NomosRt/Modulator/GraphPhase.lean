/-
  NomosRt.Modulator.GraphPhase

  The phases of a control graph in exact arithmetic: `:phasor` and `:beat-phase`.

  A phasor shows the phase it has accumulated and wraps when the next one reaches 1; it
  does not wrap below 0.  A beat phase is a remainder, which has the sign of the beat.
  So a rate that turns a phasor back past 0, and a beat before 0, give a phase that is
  negative.
-/

import NomosRt.Modulator.GraphCorrect
import NomosRt.Modulator.Phase

namespace NomosRt.Modulator

open NomosRt.Lib CFloat

/-! ## One tick -/

section Ticks

variable {D F : Type*} [CFloat F] [CNarrow D F]

/-- The virtual functions of `graph_modulator`. -/
def GraphModulator.sem : ModulatorSem String String (GraphModulator F) (ModulatorOutput F) D F where
  tick view beat rate m := m.tick view beat rate
  update key value m := m.update key value

/-- What the nodes read in a tick. -/
def GraphModulator.env (m : GraphModulator F) (view : String → Option (ModulatorOutput F)) (beat : D) (rate : F) :
    TickEnv D F :=
  ⟨m.graph.params, view, beat, tickDt rate⟩

/-- What input `slot` of node `i` evaluates to in a tick. -/
def inputAt (env : TickEnv D F) (nodes : List (CgNode F)) (i : Nat) (n : CgNode F) (slot : Nat) : F :=
  readIndex (evalCode env (nodes.take i) []).2 (n.inputs.getD slot (-1))

variable {m : GraphModulator F}

/-- A tick evaluates each node on the values of its inputs. -/
theorem tick_getElem? (hlink : Linked 0 m.graph.nodes) (view : String → Option (ModulatorOutput F)) (beat : D) (rate : F)
    {i : Nat} {n : CgNode F} (hn : m.graph.nodes[i]? = some n) :
    let env := m.env view beat rate
    (m.tick view beat rate).2.values[i]? =
      some (evalOp env n (inputAt env m.graph.nodes i n)).1 ∧
    (m.tick view beat rate).2.graph.nodes[i]? =
      some { n with state := (evalOp env n (inputAt env m.graph.nodes i n)).2 } := by
  intro env
  have hpass : forwardPass env m.graph.nodes (resize m.values m.graph.nodes.length) =
      evalCode env m.graph.nodes [] :=
    forwardPass_eq_evalCode env (length_resize _ _) hlink
  obtain ⟨hval, hnode⟩ := evalCode_getElem? env hn []
  rw [List.length_nil, Nat.zero_add] at hval
  simp only [GraphModulator.tick]
  show (forwardPass env m.graph.nodes (resize m.values m.graph.nodes.length)).2[i]? = _ ∧
    (forwardPass env m.graph.nodes (resize m.values m.graph.nodes.length)).1[i]? = _
  rw [hpass, hval, hnode]
  exact ⟨rfl, rfl⟩

/-- Every node after a tick is one from before it with a new state. -/
theorem of_tick_getElem? (hlink : Linked 0 m.graph.nodes) (view : String → Option (ModulatorOutput F)) (beat : D)
    (rate : F) {i : Nat} {n' : CgNode F}
    (hn' : (m.tick view beat rate).2.graph.nodes[i]? = some n') :
    ∃ n, m.graph.nodes[i]? = some n ∧
      n' = { n with state := (evalOp (m.env view beat rate) n
        (inputAt (m.env view beat rate) m.graph.nodes i n)).2 } := by
  have hlen : (m.tick view beat rate).2.graph.nodes.length = m.graph.nodes.length := by
    show (forwardPass (m.env view beat rate) m.graph.nodes
      (resize m.values m.graph.nodes.length)).1.length = _
    rw [forwardPass_eq_evalCode _ (length_resize _ _) hlink]
    exact (length_evalCode _ _ []).1
  have hi : i < m.graph.nodes.length := by
    rw [← hlen]
    exact (List.getElem?_eq_some_iff.mp hn').1
  refine ⟨m.graph.nodes[i], List.getElem?_eq_getElem hi, ?_⟩
  have hnode := (tick_getElem? hlink view beat rate (List.getElem?_eq_getElem hi)).2
  rw [hn', Option.some.injEq] at hnode
  exact hnode

theorem Linked.tick (hlink : Linked 0 m.graph.nodes) (view : String → Option (ModulatorOutput F)) (beat : D) (rate : F) :
    Linked 0 (m.tick view beat rate).2.graph.nodes := by
  intro i n' hn'
  obtain ⟨n, hn, rfl⟩ := of_tick_getElem? hlink view beat rate hn'
  exact hlink i n hn

end Ticks

/-! ## New graphs -/

section New

variable {D F : Type*} [CFloat F] [CNarrow D F]

/-- A property of constants and of new operators. -/
structure NewNode (D : Type*) {F : Type*} [CFloat F] [CNarrow D F] (P : CgNode F → Prop) : Prop where
  const : ∀ x, P (constNode x)
  op : ∀ op (items : List (Edn D)) sh inputs, opShape op items = some sh →
    P (sh.node inputs (lit 0, lit 0))

variable {P : CgNode F → Prop}

theorem NewNode.operand (hP : NewNode D P) {kids : List (Code F)}
    (h : ∀ k ∈ kids, ∀ base, ∀ n ∈ (k base Cell.zero).2, P n) (i : Nat) (dflt : Option ℚ)
    (base : Nat) : ∀ n ∈ (codeOperand kids i dflt base Cell.zero).2, P n := by
  unfold codeOperand
  cases hkid : kids[i]? with
  | some kid => exact h kid (List.mem_of_getElem? hkid) base
  | none =>
      cases dflt with
      | none => exact List.forall_mem_nil _
      | some x => exact List.forall_mem_singleton.mpr (hP.const _)

theorem NewNode.operands (hP : NewNode D P) {kids : List (Code F)}
    (h : ∀ k ∈ kids, ∀ base, ∀ n ∈ (k base Cell.zero).2, P n) (i : Nat) (specs : List (Option ℚ))
    (base : Nat) : ∀ n ∈ (codeOperands kids i specs base Cell.zero).2, P n := by
  induction specs generalizing i base with
  | nil => exact List.forall_mem_nil _
  | cons dflt specs ih => exact List.forall_mem_append.mpr ⟨hP.operand h i dflt base, ih _ _⟩

theorem NewNode.code (hP : NewNode D P) (v : Edn D) :
    ∀ base, ∀ n ∈ (code v base Cell.zero).2, P n := by
  refine Edn.vectorRec_value (P := fun v => ∀ base, ∀ n ∈ (Modulator.code v base Cell.zero).2, P n)
    (fun items hitems base => ?_) (fun v hv base => ?_) v
  · rw [Modulator.code, codes_eq_map]
    unfold codeVector
    split
    · next op rest =>
        cases hsh : opShape (F := F) op (.keyword op :: rest) with
        | none => exact List.forall_mem_nil _
        | some sh =>
            refine List.forall_mem_append.mpr ⟨hP.operands ?_ 0 sh.operands base,
              List.forall_mem_singleton.mpr (hP.op op _ sh _ hsh)⟩
            intro k hk
            obtain ⟨v, hv, rfl⟩ := List.mem_map.mp (List.mem_of_mem_tail hk)
            exact hitems v hv
    · exact List.forall_mem_nil _
  · cases v with
    | double x => exact List.forall_mem_singleton.mpr (hP.const _)
    | int n => exact List.forall_mem_singleton.mpr (hP.const _)
    | vector items => exact absurd rfl (hv items)
    | _ => exact List.forall_mem_nil _

/-- The nodes of a parsed graph. -/
theorem NewNode.parsed (hP : NewNode D P) (v : Edn D) (params : String → Option F) :
    ∀ n ∈ (parseControlGraph v params).nodes, P n := by
  rw [parseControlGraph_eq]
  refine hP.operands ?_ 0 outputSpecs 0
  intro k hk
  obtain ⟨x, -, rfl⟩ := List.mem_map.mp hk
  intro base
  cases x with
  | none => exact List.forall_mem_nil _
  | some v => exact hP.code v base

theorem parsed_linked (v : Edn D) (params : String → Option F) :
    Linked 0 (parseControlGraph v params).nodes := by
  rw [parseControlGraph_eq]
  exact outputCode_linked v Cell.zero

/-- No node of a parsed graph has been evaluated. -/
theorem parsed_state (v : Edn D) (params : String → Option F) :
    ∀ n ∈ (parseControlGraph v params).nodes, n.state = (lit 0, lit 0) := by
  have hnew : NewNode D fun n : CgNode F => n.state = (lit 0, lit 0) :=
    ⟨fun _ => rfl, fun _ _ _ _ _ => rfl⟩
  exact hnew.parsed v params

end New

/-! ## Phases -/

section Phases

attribute [local instance] realMath realNarrow

/-- The remainder by 1 has the sign of its argument. -/
theorem inCycle_fmod_one_iff (x : ℝ) : InCycle (fmod x (lit 1)) ↔ 0 ≤ x ∨ ∃ k : ℤ, x = k := by
  have hfmod : fmod x (lit 1) = x - truncReal x := by
    rw [real_lit_one]
    show x - 1 * (truncReal (x / 1) : ℝ) = x - truncReal x
    rw [div_one, one_mul]
  rw [hfmod, truncReal, InCycle]
  split_ifs with hx
  · have hlow := Int.floor_le x
    have hhigh := Int.lt_floor_add_one x
    constructor
    · exact fun _ => .inl hx
    · exact fun _ => ⟨by linarith, by linarith⟩
  · have hlow := Int.le_ceil x
    have hhigh := Int.ceil_lt_add_one x
    constructor
    · rintro ⟨h0, -⟩
      exact .inr ⟨⌈x⌉, by linarith⟩
    · rintro (h0 | ⟨k, rfl⟩)
      · exact absurd h0 hx
      · rw [Int.ceil_intCast, sub_self]
        exact ⟨le_refl 0, one_pos⟩

/-- The condition on a node whose first input is `x`: a phasor is not turned back past 0, and a
    beat phase is not taken before beat 0, except at a whole number of periods. -/
def NodeMoves (env : TickEnv ℝ ℝ) (n : CgNode ℝ) (x : ℝ) : Prop :=
  (n.type = .phasor → 0 ≤ n.state.1 + x * env.dt) ∧
  (n.type = .beatPhase → x ≤ 0 ∨ 0 ≤ env.beat ∨ ∃ k : ℤ, env.beat / x = k)

/-- A node's value is a phase, and so is the one a phasor has accumulated. -/
def NodeOk (n : CgNode ℝ) (x : ℝ) : Prop :=
  (n.type = .phasor → InCycle n.state.1 ∧ InCycle x) ∧ (n.type = .beatPhase → InCycle x)

theorem inCycle_phasorNext_iff (phase rate dt : ℝ) :
    InCycle (phasorNext phase rate dt) ↔ 0 ≤ phase + rate * dt := by
  rw [phasorNext, real_lit_one]
  simp only [real_le]
  split_ifs with hwrap
  · have hlow := Int.floor_le (phase + rate * dt)
    have hhigh := Int.lt_floor_add_one (phase + rate * dt)
    show (0 ≤ phase + rate * dt - (⌊phase + rate * dt⌋ : ℝ) ∧
      phase + rate * dt - (⌊phase + rate * dt⌋ : ℝ) < 1) ↔ _
    constructor
    · exact fun _ => by linarith
    · exact fun _ => ⟨by linarith, by linarith⟩
  · exact ⟨And.left, fun h0 => ⟨h0, not_le.mp hwrap⟩⟩

theorem inCycle_beatPhase_iff (beat period : ℝ) :
    InCycle (if le period (lit 0) then lit 0 else fmod (beat / period) (lit 1)) ↔
      period ≤ 0 ∨ 0 ≤ beat ∨ ∃ k : ℤ, beat / period = k := by
  rw [real_lit_zero]
  simp only [real_le]
  split_ifs with hperiod
  · exact ⟨fun _ => .inl hperiod, fun _ => ⟨le_refl 0, one_pos⟩⟩
  · have hsign : 0 ≤ beat / period ↔ 0 ≤ beat := by
      rw [le_div_iff₀ (not_le.mp hperiod), zero_mul]
    rw [inCycle_fmod_one_iff, hsign, or_iff_right hperiod]

/-- One evaluation of a node. -/
theorem nodeOk_evalOp_iff (env : TickEnv ℝ ℝ) {n : CgNode ℝ} (inp : Nat → ℝ)
    (hn : n.type = .phasor → InCycle n.state.1) :
    NodeOk { n with state := (evalOp env n inp).2 } (evalOp env n inp).1 ↔
      NodeMoves env n (inp 0) := by
  rw [NodeOk, NodeMoves]
  by_cases hphasor : n.type = .phasor
  · have heval : evalOp env n inp = (n.state.1, (phasorNext n.state.1 (inp 0) env.dt, n.state.2)) := by
      simp only [evalOp, hphasor]
      rfl
    rw [heval, ← inCycle_phasorNext_iff]
    simp [hphasor, hn hphasor]
  · by_cases hbeat : n.type = .beatPhase
    · have heval : (evalOp env n inp).1 =
          if le (inp 0) (lit 0) then lit 0 else fmod (env.beat / inp 0) (lit 1) := by
        simp only [evalOp, hbeat]
        split_ifs <;> rfl
      rw [heval, inCycle_beatPhase_iff]
      simp [hbeat]
    · simp [hphasor, hbeat]

/-! ### Runs -/

/-- A graph modulator under `tick` and `update`. -/
noncomputable def graphMachine (v : Edn ℝ) (params : String → Option ℝ) :
    Machine (GraphModulator ℝ) (ModulatorCall String String (ModulatorOutput ℝ) ℝ ℝ) :=
  callMachine GraphModulator.sem (GraphModulator.make (parseControlGraph v params))

/-- The condition on a call: every node's, for what its first input evaluates to. -/
def PhasesMove (m : GraphModulator ℝ) :
    ModulatorCall String String (ModulatorOutput ℝ) ℝ ℝ → Prop
  | .tick view beat rate => ∀ (i : Nat) (n : CgNode ℝ), m.graph.nodes[i]? = some n →
      NodeMoves (m.env view beat rate) n (inputAt (m.env view beat rate) m.graph.nodes i n 0)
  | .update _ _ => True

/-- The value of every phasor and every beat phase is a phase. -/
def PhasesOk (m : GraphModulator ℝ) : Prop :=
  ∀ (i : Nat) (n : CgNode ℝ), m.graph.nodes[i]? = some n → ∃ x, m.values[i]? = some x ∧ NodeOk n x

theorem phasesOk_make (v : Edn ℝ) (params : String → Option ℝ) :
    PhasesOk (GraphModulator.make (parseControlGraph v params)) := by
  intro i n hn
  have hi := (List.getElem?_eq_some_iff.mp hn).1
  have hstate := parsed_state v params n (List.mem_of_getElem? hn)
  have hzero : InCycle (lit 0 : ℝ) := by
    rw [real_lit_zero]
    exact ⟨le_refl 0, one_pos⟩
  refine ⟨lit 0, ?_, fun _ => ⟨?_, hzero⟩, fun _ => hzero⟩
  · show (List.replicate (parseControlGraph v params).nodes.length (lit 0))[i]? = some (lit 0)
    rw [List.getElem?_replicate]
    exact if_pos hi
  · rw [hstate]
    exact hzero

theorem phasesOk_tick_iff {m : GraphModulator ℝ} (hlink : Linked 0 m.graph.nodes)
    (hok : PhasesOk m) (view : String → Option (ModulatorOutput ℝ)) (beat rate : ℝ) :
    PhasesOk (m.tick view beat rate).2 ↔ PhasesMove m (.tick view beat rate) := by
  have hslot : ∀ (i : Nat) (n : CgNode ℝ), m.graph.nodes[i]? = some n → n.type = .phasor → InCycle n.state.1 := by
    intro i n hn hphasor
    obtain ⟨x, -, hx, -⟩ := hok i n hn
    exact (hx hphasor).1
  constructor
  · intro hnext i n hn
    obtain ⟨hval, hnode⟩ := tick_getElem? hlink view beat rate hn
    obtain ⟨x, hx, hnodeOk⟩ := hnext i _ hnode
    rw [hval, Option.some.injEq] at hx
    rw [← hx] at hnodeOk
    exact (nodeOk_evalOp_iff _ _ (hslot i n hn)).mp hnodeOk
  · intro hmove i n' hn'
    obtain ⟨n, hn, rfl⟩ := of_tick_getElem? hlink view beat rate hn'
    refine ⟨_, (tick_getElem? hlink view beat rate hn).1, ?_⟩
    exact (nodeOk_evalOp_iff _ _ (hslot i n hn)).mpr (hmove i n hn)

theorem linked_step {m m' : GraphModulator ℝ} (hlink : Linked 0 m.graph.nodes)
    {c : ModulatorCall String String (ModulatorOutput ℝ) ℝ ℝ} {v : Edn ℝ}
    {params : String → Option ℝ} (hstep : (graphMachine v params).step m c = some m') :
    Linked 0 m'.graph.nodes := by
  cases c with
  | tick view beat rate =>
      cases hstep
      exact hlink.tick view beat rate
  | update key value =>
      cases hstep
      exact hlink

/-- What a call does to phases that are in their cycle. -/
theorem phasesOk_step_iff {m m' : GraphModulator ℝ} (hlink : Linked 0 m.graph.nodes)
    (hok : PhasesOk m) {c : ModulatorCall String String (ModulatorOutput ℝ) ℝ ℝ} {v : Edn ℝ}
    {params : String → Option ℝ} (hstep : (graphMachine v params).step m c = some m') :
    PhasesOk m' ↔ PhasesMove m c := by
  cases c with
  | tick view beat rate =>
      cases hstep
      exact phasesOk_tick_iff hlink hok view beat rate
  | update key value =>
      cases hstep
      exact iff_of_true hok trivial

theorem tickDt_nonneg (rate : ℝ) : 0 ≤ tickDt rate := by
  rw [tickDt, real_lit_zero, real_lit_one]
  simp only [real_lt]
  split_ifs with hrate
  · exact (one_div_pos.mpr hrate).le
  · exact le_refl 0

/-- Along every run whose ticks turn no phasor back past 0 and take no beat phase before beat 0
    off the period, all phases of the graph are in `[0, 1)`; a tick that does either shows or
    leaves one that is not.  Rates and beats that are not negative do neither. -/
theorem graph_phases_in_cycle (v : Edn ℝ) (params : String → Option ℝ) :
    (∀ as m, (graphMachine v params).Reached PhasesMove as m → PhasesOk m) ∧
    (∀ as m c m', (graphMachine v params).Reached Machine.free as m → PhasesOk m →
      (graphMachine v params).step m c = some m' → (PhasesOk m' ↔ PhasesMove m c)) ∧
    ∀ m view beat rate, PhasesOk m → 0 ≤ beat →
      (∀ (i : Nat) (n : CgNode ℝ), m.graph.nodes[i]? = some n → n.type = .phasor →
        0 ≤ inputAt (m.env view beat rate) m.graph.nodes i n 0) →
      PhasesMove m (.tick view beat rate) := by
  refine ⟨fun as m hr => ?_, fun as m c m' hr hok hstep => ?_, ?_⟩
  · refine (hr.invariant (I := fun m => Linked 0 m.graph.nodes ∧ PhasesOk m)
      ⟨parsed_linked v params, phasesOk_make v params⟩ ?_).2
    rintro m c m' ⟨hlink, hok⟩ hG hstep
    exact ⟨linked_step hlink hstep, (phasesOk_step_iff hlink hok hstep).mpr hG⟩
  · refine phasesOk_step_iff ?_ hok hstep
    exact hr.invariant (I := fun m => Linked 0 m.graph.nodes) (parsed_linked v params)
      fun m c m' hlink _ hstep => linked_step hlink hstep
  · intro m view beat rate hok hbeat hrate i n hn
    refine ⟨fun hphasor => ?_, fun _ => .inr (.inl hbeat)⟩
    obtain ⟨x, -, hx, -⟩ := hok i n hn
    exact add_nonneg (hx hphasor).1.1 (mul_nonneg (hrate i n hn hphasor) (tickDt_nonneg rate))

/-! ### Forwards and backwards -/

/-- `[:phasor 1.0]`. -/
def forwards : Edn ℝ := .vector [.keyword "phasor", .double 1]

/-- The first tick of a phasor at rate 1. -/
theorem phases_forwards :
    PhasesOk ((GraphModulator.make (parseControlGraph forwards fun _ => none)).tick
      (fun _ => none) (0 : ℝ) 24).2 := by
  obtain ⟨hrun, -, hforward⟩ := graph_phases_in_cycle forwards fun _ => none
  refine hrun [.tick (fun _ => none) 0 24] _ (.step .start ?_ rfl)
  refine hforward _ _ _ _ (hrun [] _ .start) (le_refl 0) ?_
  intro i n hn hphasor
  have hnodes : (graphMachine forwards fun _ => none).start.graph.nodes =
      [constNode 1, ⟨.phasor, [0], lit 0, "", (lit 0, lit 0)⟩] := rfl
  rw [hnodes] at hn ⊢
  rcases i with - | - | i
  · cases hn
    exact absurd hphasor CgKind.noConfusion
  · cases hn
    exact zero_le_one (α := ℝ)
  · cases hn

/-- `{:cv [:beat-phase 1.0] :aux [:phasor -1.0]}`. -/
noncomputable def backwards : GraphModulator ℝ :=
  GraphModulator.make (parseControlGraph (.map
    [(.keyword "cv", .vector [.keyword "beat-phase", .double (1 : ℝ)]),
      (.keyword "aux", .vector [.keyword "phasor", .double (-1)])]) fun _ => none)

/-- A tick at half a beat before 0. -/
noncomputable def tickBackwards (m : GraphModulator ℝ) : GraphModulator ℝ :=
  (m.tick (fun _ => none) (lit (-1 / 2) : ℝ) (lit 24)).2

theorem tickDt_24 : tickDt (24 : ℝ) = 1 / 24 := by
  norm_num [tickDt, real_lit]

/-- The beat phase shows -1/2 at once, and the phasor -1/24 in the second tick. -/
theorem phases_backwards :
    (tickBackwards backwards).values[1]? = some (-1 / 2 : ℝ) ∧
    (tickBackwards (tickBackwards backwards)).values[3]? = some (-1 / 24 : ℝ) ∧
    ¬ InCycle (-1 / 2) ∧ ¬ InCycle (-1 / 24) := by
  have hlink : Linked 0 backwards.graph.nodes := parsed_linked _ _
  have hbeat : backwards.graph.nodes[1]? = some ⟨.beatPhase, [0], lit 0, "", (lit 0, lit 0)⟩ := rfl
  have hphasor : backwards.graph.nodes[3]? = some ⟨.phasor, [2], lit 0, "", (lit 0, lit 0)⟩ := rfl
  have hperiod : ∀ env : TickEnv ℝ ℝ, inputAt env backwards.graph.nodes 1
      ⟨.beatPhase, [0], lit 0, "", (lit 0, lit 0)⟩ 0 = 1 := fun _ => rfl
  have hrate : ∀ env : TickEnv ℝ ℝ, inputAt env backwards.graph.nodes 3
      ⟨.phasor, [2], lit 0, "", (lit 0, lit 0)⟩ 0 = -1 := fun _ => rfl
  unfold tickBackwards
  refine ⟨?_, ?_, ?_, ?_⟩
  · rw [(tick_getElem? hlink _ _ _ hbeat).1]
    simp only [evalOp, hperiod]
    norm_num [real_lit, CNarrow.narrow, GraphModulator.env, fmod, truncReal]
  · have hnext := (tick_getElem? hlink (fun _ => none) (lit (-1 / 2) : ℝ) (lit 24) hphasor).2
    rw [(tick_getElem? (hlink.tick _ _ _) _ _ _ hnext).1]
    simp only [evalOp, hrate]
    norm_num [real_lit, GraphModulator.env, tickDt_24]
  · norm_num [InCycle]
  · norm_num [InCycle]

end Phases

end NomosRt.Modulator
