/-
  NomosRt.Modulator.Residue

  What a stopped modulator leaves behind.

  `stop` removes a modulator from the table; `last_outputs_` belongs to the tick
  thread and keeps the most recently recorded output of every id.  So when no
  modulator is active the engine is a new one except for these records, and a
  later run can tell the difference only by reading an id that was recorded.
-/

import NomosRt.Modulator.Engine
import NomosRt.Modulator.Graph

namespace NomosRt.Modulator

open NomosRt.Lib

/-! ## Records -/

section Records

variable {I K M O B F : Type*} [DecidableEq I]

/-- The output map after some callbacks. -/
def record (outs : I → Option O) (cbs : List (I × O)) : I → Option O :=
  cbs.foldl (fun outs p => Function.update outs p.1 (some p.2)) outs

theorem record_append (outs : I → Option O) (as bs : List (I × O)) :
    record outs (as ++ bs) = record (record outs as) bs :=
  List.foldl_append

/-- An id without a callback keeps its record. -/
theorem record_of_notMem {id : I} (outs : I → Option O) (cbs : List (I × O))
    (h : ∀ p ∈ cbs, p.1 ≠ id) : record outs cbs id = outs id := by
  induction cbs generalizing outs with
  | nil => rfl
  | cons p cbs ih =>
      rw [List.forall_mem_cons] at h
      show record (Function.update outs p.1 (some p.2)) cbs id = outs id
      rw [ih _ h.2, Function.update_of_ne h.1.symm]

/-- A newly constructed engine, but for its recorded outputs. -/
def Engine.freshWith (outs : I → Option O) : Engine I M O :=
  { (Engine.fresh : Engine I M O) with lastOutputs := outs }

variable (sem : ModulatorSem I K M O B F)

/-- The callbacks of a sequence of calls. -/
def Engine.callbacks (e : Engine I M O) (ops : List (EngineOp I K M B F)) : List (I × O) :=
  (e.trace sem ops).flatMap Prod.fst

theorem callbacks_cons (e : Engine I M O) (op : EngineOp I K M B F)
    (ops : List (EngineOp I K M B F)) :
    e.callbacks sem (op :: ops) = (e.step sem op).1 ++ (e.step sem op).2.callbacks sem ops :=
  rfl

theorem tickOne_records (t : Table I) (beat : B) (rate : F) (e : Engine I M O) (id : I) :
    (Engine.tickOne sem t beat rate e id).2.lastOutputs =
      record e.lastOutputs (Engine.tickOne sem t beat rate e id).1 := by
  rw [Engine.tickOne]
  split <;> rfl

theorem tickLoop_records (t : Table I) (beat : B) (rate : F) (ids : List I) (e : Engine I M O) :
    (Engine.tickLoop sem t beat rate ids e).2.lastOutputs =
      record e.lastOutputs (Engine.tickLoop sem t beat rate ids e).1 := by
  induction ids generalizing e with
  | nil => rfl
  | cons id ids ih =>
      simp only [Engine.tickLoop]
      rw [ih, tickOne_records, record_append]

theorem step_records (e : Engine I M O) (op : EngineOp I K M B F) :
    (e.step sem op).2.lastOutputs = record e.lastOutputs (e.step sem op).1 := by
  cases op with
  | control op => cases op <;> rfl
  | updateParam id key value =>
      show (e.updateParam sem id key value).lastOutputs = e.lastOutputs
      rw [Engine.updateParam]
      split <;> rfl
  | tick beat rate => exact tickLoop_records sem e.table beat rate _ e

/-- The recorded outputs are those of the callbacks made. -/
theorem after_records (e : Engine I M O) (ops : List (EngineOp I K M B F)) :
    (e.after sem ops).lastOutputs = record e.lastOutputs (e.callbacks sem ops) := by
  induction ops generalizing e with
  | nil => rfl
  | cons op ops ih =>
      rw [callbacks_cons, record_append, ← step_records]
      exact ih (e.step sem op).2

theorem simulates_freshWith (outs : I → Option O) :
    Simulates (Engine.freshWith outs : Engine I M O) ⟨[], outs⟩ :=
  { (simulates_fresh : Simulates (Engine.fresh : Engine I M O) _) with outputs := rfl }

/-- An engine with no active modulator is told from a new one by its records
    only. -/
theorem trace_of_size_zero {e : Engine I M O} {r : RefEngine I M O} (h : Simulates e r)
    (hsize : e.size = 0) (ops : List (EngineOp I K M B F)) :
    e.trace sem ops = (Engine.freshWith e.lastOutputs).trace sem ops := by
  have hmods : r.mods = [] := by
    rw [h.size_eq] at hsize
    exact List.length_eq_zero_iff.mp hsize
  have hr : r = ⟨[], e.lastOutputs⟩ := by
    rw [h.outputs, ← hmods]
  rw [trace_eq sem h, hr, trace_eq sem (simulates_freshWith e.lastOutputs)]

end Records

/-! ## Modulators that do not look -/

section ReadsOnly

variable {I K M O B F : Type*} [DecidableEq I] (sem : ModulatorSem I K M O B F)

/-- Two output maps that agree on the ids in `S`. -/
def AgreeOn (S : Set I) (v w : I → Option O) : Prop := ∀ id ∈ S, v id = w id

theorem AgreeOn.update {S : Set I} {v w : I → Option O} (h : AgreeOn S v w) (id : I) (out : O) :
    AgreeOn S (Function.update v id (some out)) (Function.update w id (some out)) := by
  intro a ha
  by_cases hid : a = id
  · rw [hid, Function.update_self, Function.update_self]
  · rw [Function.update_of_ne hid, Function.update_of_ne hid]
    exact h a ha

/-- The modulators in `P` stay in `P` and read no output but those of `S`. -/
structure ReadsOnly (S : Set I) (P : M → Prop) : Prop where
  tick_eq : ∀ m, P m → ∀ v w, AgreeOn S v w → ∀ beat rate,
    sem.tick v beat rate m = sem.tick w beat rate m
  tick_mem : ∀ m, P m → ∀ v beat rate, P (sem.tick v beat rate m).2
  update_mem : ∀ m, P m → ∀ key value, P (sem.update key value m)

variable {sem} {S : Set I} {P : M → Prop}

/-- Two references with the same modulators, all in `P`, and outputs that agree
    on `S`. -/
structure Alike (S : Set I) (P : M → Prop) (r₁ r₂ : RefEngine I M O) : Prop where
  mods : r₁.mods = r₂.mods
  all : ∀ p ∈ r₂.mods, P p.2
  outputs : AgreeOn S r₁.outputs r₂.outputs

theorem tickList_alike (h : ReadsOnly sem S P) (beat : B) (rate : F) (ms : List (I × M))
    (v w : I → Option O) (hall : ∀ p ∈ ms, P p.2) (hvw : AgreeOn S v w) :
    (RefEngine.tickList sem beat rate ms v).1 = (RefEngine.tickList sem beat rate ms w).1 ∧
      (RefEngine.tickList sem beat rate ms v).2.1 = (RefEngine.tickList sem beat rate ms w).2.1 ∧
      (∀ p ∈ (RefEngine.tickList sem beat rate ms w).2.1, P p.2) ∧
      AgreeOn S (RefEngine.tickList sem beat rate ms v).2.2
        (RefEngine.tickList sem beat rate ms w).2.2 := by
  induction ms generalizing v w with
  | nil => exact ⟨rfl, rfl, hall, hvw⟩
  | cons q ms ih =>
      obtain ⟨id, m⟩ := q
      rw [List.forall_mem_cons] at hall
      have hm : P m := hall.1
      simp only [RefEngine.tickList, h.tick_eq m hm v w hvw beat rate]
      obtain ⟨hcbs, hms, hP, houts⟩ :=
        ih _ _ hall.2 (hvw.update id (sem.tick w beat rate m).1)
      refine ⟨by rw [hcbs], by rw [hms], ?_, houts⟩
      rw [List.forall_mem_cons]
      exact ⟨h.tick_mem m hm w beat rate, hP⟩

theorem Alike.step {r₁ r₂ : RefEngine I M O} (h : ReadsOnly sem S P) (ha : Alike S P r₁ r₂)
    (op : EngineOp I K M B F) (hop : ∀ id mod, op = .control (.start id mod) → P mod) :
    (r₁.step sem op).1 = (r₂.step sem op).1 ∧
      Alike S P (r₁.step sem op).2 (r₂.step sem op).2 := by
  obtain ⟨ms, v⟩ := r₁
  obtain ⟨ms', w⟩ := r₂
  -- the modulators are the same, so the two can differ only in outputs nobody reads
  obtain rfl : ms = ms' := ha.mods
  have hall : ∀ p ∈ ms, P p.2 := ha.all
  cases op with
  | control op =>
      cases op with
      | start id mod =>
          have hmod : P mod := hop id mod rfl
          refine ⟨rfl, ?_⟩
          show Alike S P (RefEngine.start ⟨ms, v⟩ id mod) (RefEngine.start ⟨ms, w⟩ id mod)
          rw [RefEngine.start, RefEngine.start]
          split
          · refine ⟨rfl, ?_, ha.outputs⟩
            intro p hp
            obtain ⟨q, hq, rfl⟩ := List.mem_map.mp hp
            show P (if q.1 = id then (q.1, mod) else q).2
            split
            · exact hmod
            · exact hall q hq
          · refine ⟨rfl, ?_, ha.outputs⟩
            intro p hp
            rcases List.mem_append.mp hp with hp | hp
            · exact hall p hp
            · rw [List.mem_singleton.mp hp]
              exact hmod
      | stop id =>
          refine ⟨rfl, rfl, ?_, ha.outputs⟩
          intro p hp
          exact hall p (List.mem_filter.mp hp).1
  | updateParam id key value =>
      refine ⟨rfl, rfl, ?_, ha.outputs⟩
      intro p hp
      obtain ⟨q, hq, rfl⟩ := List.mem_map.mp hp
      show P (if q.1 = id then (q.1, sem.update key value q.2) else q).2
      split
      · exact h.update_mem q.2 (hall q hq) key value
      · exact hall q hq
  | tick beat rate =>
      obtain ⟨hcbs, hms, hP, houts⟩ := tickList_alike h beat rate ms v w hall ha.outputs
      exact ⟨hcbs, hms, hP, houts⟩

theorem Alike.trace {r₁ r₂ : RefEngine I M O} (h : ReadsOnly sem S P) (ha : Alike S P r₁ r₂)
    (ops : List (EngineOp I K M B F))
    (hops : ∀ id mod, EngineOp.control (.start id mod) ∈ ops → P mod) :
    r₁.trace sem ops = r₂.trace sem ops := by
  induction ops generalizing r₁ r₂ with
  | nil => rfl
  | cons op ops ih =>
      obtain ⟨hcbs, hnext⟩ := ha.step h op fun id mod heq => by
        apply hops id mod
        rw [heq]
        exact List.mem_cons_self ..
      have hrest := ih hnext fun id mod hmem => hops id mod (List.mem_cons_of_mem _ hmem)
      rw [RefEngine.trace, RefEngine.trace, hcbs, hnext.mods, hrest]

end ReadsOnly

/-- What is left when no modulator is active.  Whatever runs next behaves as on a
    new engine that holds the outputs of the callbacks made so far, and as on a
    new engine when the modulators it starts read no id that had a callback. -/
theorem stopped_leaves_records {I K M O B F : Type*} [DecidableEq I]
    (sem : ModulatorSem I K M O B F) (before ops : List (EngineOp I K M B F))
    (hnone : ((Engine.fresh : Engine I M O).after sem before).size = 0) :
    ((Engine.fresh : Engine I M O).after sem before).callbacks sem ops =
      (Engine.freshWith (record (fun _ => none)
        ((Engine.fresh : Engine I M O).callbacks sem before))).callbacks sem ops ∧
    ∀ (S : Set I) (P : M → Prop), ReadsOnly sem S P →
      (∀ id mod, EngineOp.control (.start id mod) ∈ ops → P mod) →
      (∀ p ∈ (Engine.fresh : Engine I M O).callbacks sem before, p.1 ∉ S) →
        ((Engine.fresh : Engine I M O).after sem before).callbacks sem ops =
          (Engine.fresh : Engine I M O).callbacks sem ops := by
  obtain ⟨r, hr⟩ := simulates_after (O := O) sem before
  have hrecords := after_records sem (Engine.fresh : Engine I M O) before
  have htrace := trace_of_size_zero sem hr hnone ops
  rw [hrecords] at htrace
  refine ⟨congrArg (List.flatMap Prod.fst) htrace, ?_⟩
  intro S P hreads hstarts hclear
  -- with no callback in `S` the records agree with those of a new engine where they are read
  have halike : Alike S P (⟨[], record (fun _ => none)
      ((Engine.fresh : Engine I M O).callbacks sem before)⟩ : RefEngine I M O)
      ⟨[], fun _ => none⟩ := by
    refine ⟨rfl, ?_, ?_⟩
    · intro p hp
      cases hp
    · intro id hid
      apply record_of_notMem
      intro p hp heq
      apply hclear p hp
      rwa [heq]
  have hsame := halike.trace hreads ops hstarts
  rw [← trace_eq sem (simulates_freshWith _), ← trace_eq sem simulates_fresh] at hsame
  exact congrArg (List.flatMap Prod.fst) (htrace.trans hsame)

/-! ## Graph modulators -/

section Graph

variable {D F : Type*} [CFloat F] [CNarrow D F]

/-- Graph modulators as modulators of an engine. -/
def graphSem : ModulatorSem String String (GraphModulator F) (ModulatorOutput F) D F :=
  ⟨fun view beat rate m => m.tick view beat rate, fun key value m => m.update key value⟩

/-- Every `:mod-out` among the nodes names an id in `S`. -/
def RefsIn (S : Set String) (nodes : List (CgNode F)) : Prop :=
  ∀ n ∈ nodes, n.type = .modRef → n.paramKey ∈ S

variable {S : Set String} {v w : String → Option (ModulatorOutput F)}

theorem evalNode_agree (hvw : AgreeOn S v w) (params : String → Option F) (beat : D) (dt : F)
    {n : CgNode F} (hn : n.type = .modRef → n.paramKey ∈ S) (vals : List F) :
    evalNode ⟨params, v, beat, dt⟩ n vals = evalNode ⟨params, w, beat, dt⟩ n vals := by
  rw [evalNode, evalNode]
  -- only a `mod_ref` looks at the recorded outputs
  by_cases hty : n.type = .modRef
  · simp only [evalOp, hty, hvw _ (hn hty)]
  · unfold evalOp
    cases hk : n.type with
    | modRef => exact absurd hk hty
    | _ => rfl

theorem forwardPass_agree (hvw : AgreeOn S v w) (params : String → Option F) (beat : D) (dt : F)
    (is : List Nat) (s : List (CgNode F) × List F) (hs : RefsIn S s.1) :
    is.foldl (passRound ⟨params, v, beat, dt⟩) s = is.foldl (passRound ⟨params, w, beat, dt⟩) s ∧
      RefsIn S (is.foldl (passRound ⟨params, w, beat, dt⟩) s).1 := by
  induction is generalizing s with
  | nil => exact ⟨rfl, hs⟩
  | cons i is ih =>
      have hround : passRound ⟨params, v, beat, dt⟩ s i = passRound ⟨params, w, beat, dt⟩ s i ∧
          RefsIn S (passRound ⟨params, w, beat, dt⟩ s i).1 := by
        cases hi : s.1[i]? with
        | none =>
            simp only [passRound, hi]
            exact ⟨trivial, hs⟩
        | some n =>
            have hn := hs n (List.mem_of_getElem? hi)
            simp only [passRound, hi, evalNode_agree hvw params beat dt hn]
            refine ⟨trivial, ?_⟩
            intro n' hn' hty
            rcases List.mem_or_eq_of_mem_set hn' with hmem | rfl
            · exact hs n' hmem hty
            · exact hn hty
      rw [List.foldl_cons, List.foldl_cons, hround.1]
      exact ih _ hround.2

/-- A graph reads the outputs its `:mod-out` nodes name and no others. -/
theorem graph_readsOnly (S : Set String) :
    ReadsOnly (graphSem (D := D) (F := F)) S fun m => RefsIn S m.graph.nodes where
  tick_eq := by
    intro m hm v w hvw beat rate
    have hpass := (forwardPass_agree hvw m.graph.params beat (tickDt rate)
      (List.range m.graph.nodes.length) (m.graph.nodes, resize m.values m.graph.nodes.length) hm).1
    show m.tick v beat rate = m.tick w beat rate
    simp only [GraphModulator.tick, forwardPass, hpass]
  tick_mem := by
    intro m hm v beat rate
    exact (forwardPass_agree (fun _ _ => rfl) m.graph.params beat (tickDt rate)
      (List.range m.graph.nodes.length) (m.graph.nodes, resize m.values m.graph.nodes.length) hm).2
  update_mem := fun _ hm _ _ => hm

end Graph

/-! ## A record that is read

Exact arithmetic for both floating types.  The graphs below have only constants
and references, so no sine is taken. -/

section Reused

@[reducible] def exactFloat : CFloat ℚ where
  lit q := q
  ofInt n := n
  abs x := |x|
  floor x := ⌊x⌋
  fmod x y := x - y * (if 0 ≤ x / y then ⌊x / y⌋ else ⌈x / y⌉)
  sin _ := 0
  cos _ := 0
  lt x y := decide (x < y)
  le x y := decide (x ≤ y)
  toInt x := if 0 ≤ x then ⌊x⌋ else ⌈x⌉
  toInt_lit k _ := by simp

@[reducible] def exactNarrow : CNarrow ℚ ℚ := ⟨id⟩

attribute [local instance] exactFloat exactNarrow

/-- A new graph modulator for an expression. -/
def exactGraph (v : Edn ℚ) : GraphModulator ℚ :=
  GraphModulator.make (parseControlGraph v fun _ => none)

/-- A call on an engine of exact graph modulators. -/
abbrev ExactOp := EngineOp String String (GraphModulator ℚ) ℚ ℚ

/-- `a` runs `[:const 1.0]` for a tick and is stopped. -/
def constantStopped : List ExactOp :=
  [.control (.start "a" (exactGraph (.vector [.keyword "const", .double 1]))), .tick 0 24,
    .control (.stop "a")]

/-- `b` runs `[:mod-out id :cv]` for a tick. -/
def readerOf (id : String) : List ExactOp :=
  [.control (.start "b" (exactGraph (.vector [.keyword "mod-out", .keyword id, .keyword "cv"]))),
    .tick 0 24]

/-- The new modulator reads the stopped one's last output, where on a new engine
    it reads 0. -/
theorem stopped_output_is_read :
    (Engine.fresh.after graphSem constantStopped).size = 0 ∧
    ((Engine.fresh.after graphSem constantStopped).callbacks graphSem (readerOf "a")).map
      (fun p => (p.1, p.2.cv)) = [("b", 1)] ∧
    (Engine.fresh.callbacks graphSem (readerOf "a")).map (fun p => (p.1, p.2.cv)) = [("b", 0)] ∧
    (Engine.fresh.after graphSem constantStopped).callbacks graphSem (readerOf "a") ≠
      Engine.fresh.callbacks graphSem (readerOf "a") := by
  decide +kernel

/-- A reader of an id that was never recorded cannot tell. -/
theorem unrecorded_reader_is_blind :
    (Engine.fresh.after graphSem constantStopped).size = 0 ∧
    (Engine.fresh.after graphSem constantStopped).callbacks graphSem (readerOf "c") =
      Engine.fresh.callbacks graphSem (readerOf "c") := by
  have hnone : (Engine.fresh.after graphSem constantStopped).size = 0 := by decide +kernel
  have hrefs : RefsIn {"c"} (exactGraph
      (.vector [.keyword "mod-out", .keyword "c", .keyword "cv"])).graph.nodes := by
    intro n hn _
    have hkeys : ∀ n ∈ (exactGraph
        (.vector [.keyword "mod-out", .keyword "c", .keyword "cv"])).graph.nodes,
        n.paramKey = "c" := by decide +kernel
    exact hkeys n hn
  have hclear : ∀ p ∈ Engine.fresh.callbacks graphSem constantStopped, p.1 ≠ "c" := by
    decide +kernel
  refine ⟨hnone, (stopped_leaves_records graphSem constantStopped (readerOf "c") hnone).2 {"c"}
    (fun m => RefsIn {"c"} m.graph.nodes) (graph_readsOnly _) ?_ hclear⟩
  intro id mod hmem
  simp only [readerOf, List.mem_cons, EngineOp.control.injEq, TableOp.start.injEq,
    List.not_mem_nil, or_false, reduceCtorEq] at hmem
  rw [hmem.2]
  exact hrefs

end Reused

end NomosRt.Modulator
