/-
  NomosRt.Modulator.Engine

  `modulator_engine`: a table of modulators replaced copy-on-write, and the
  outputs recorded while ticking.

  Order lives in the vector `tick_order` and identity in the map `mods`, which
  points to heap objects shared by all copies of the table.  The reference is a
  list of (id, modulator) pairs and a map from ids to their latest output; the
  engine is shown to refine it over every sequence of calls, and a tick that is
  overtaken by `start` and `stop` calls to be one that ran before them.

  A modulator is any state with a `tick` that may read recorded outputs and an
  `update`.  `table_` is built with an empty table and only ever replaced by
  another, so its null tests never succeed.
-/

import Mathlib.Data.List.AList

namespace NomosRt.Modulator

/-- The virtual functions of `abstract_modulator`.  `tick` gets the view of
    `last_output` at the time of the call. -/
structure ModulatorSem (I K M O B F : Type*) where
  tick : (I → Option O) → B → F → M → O × M
  update : K → F → M → M

/-- A call the engine makes on a modulator. -/
inductive ModulatorCall (I K O B F : Type*) where
  | tick (view : I → Option O) (beat : B) (rate : F)
  | update (key : K) (value : F)

/-! ## The engine -/

/-- `table_t`; a value of `mods` is the address of a heap object. -/
structure Table (I : Type*) where
  mods : AList fun _ : I => Nat
  tickOrder : List I

/-- The installed table, the heap of modulator objects and `last_outputs_`. -/
structure Engine (I M O : Type*) where
  heap : List M
  table : Table I
  lastOutputs : I → Option O

/-- The calls that install a new table. -/
inductive TableOp (I M : Type*) where
  | start (id : I) (mod : M)
  | stop (id : I)

/-- The calls of the engine's interface. -/
inductive EngineOp (I K M B F : Type*) where
  | control (op : TableOp I M)
  | updateParam (id : I) (key : K) (value : F)
  | tick (beat : B) (rate : F)

namespace Engine

variable {I K M O B F : Type*} [DecidableEq I]

/-- A newly constructed engine. -/
def fresh : Engine I M O := ⟨[], ⟨∅, []⟩, fun _ => none⟩

/-- `start`. -/
def start (e : Engine I M O) (id : I) (mod : M) : Engine I M O :=
  let order := if (e.table.mods.lookup id).isNone then e.table.tickOrder ++ [id]
    else e.table.tickOrder
  { e with
    heap := e.heap ++ [mod]
    table := ⟨e.table.mods.insert id e.heap.length, order⟩ }

/-- `stop`. -/
def stop (e : Engine I M O) (id : I) : Engine I M O :=
  { e with table := ⟨e.table.mods.erase id, e.table.tickOrder.filter (· ≠ id)⟩ }

/-- A call that installs a new table. -/
def control (e : Engine I M O) : TableOp I M → Engine I M O
  | .start id mod => e.start id mod
  | .stop id => e.stop id

/-- `size`. -/
def size (e : Engine I M O) : Nat := e.table.mods.keys.length

variable (sem : ModulatorSem I K M O B F)

/-- `update_param`. -/
def updateParam (e : Engine I M O) (id : I) (key : K) (value : F) : Engine I M O :=
  match e.table.mods.lookup id with
  | none => e
  | some ref => { e with heap := e.heap.modify ref (sem.update key value) }

/-- One round of the loop of `tick`, for an id of the loaded table `t`. -/
def tickOne (t : Table I) (beat : B) (rate : F) (e : Engine I M O) (id : I) :
    List (I × O) × Engine I M O :=
  match (t.mods.lookup id).bind fun ref => (e.heap[ref]?).map fun m => (ref, m) with
  | none => ([], e)
  | some (ref, m) =>
      let (out, m') := sem.tick e.lastOutputs beat rate m
      ([(id, out)],
        { e with
          heap := e.heap.set ref m'
          lastOutputs := Function.update e.lastOutputs id (some out) })

/-- The loop of `tick` over the ids that are left: the callbacks and the engine. -/
def tickLoop (t : Table I) (beat : B) (rate : F) :
    List I → Engine I M O → List (I × O) × Engine I M O
  | [], e => ([], e)
  | id :: ids, e =>
      let (cbs, e₁) := tickOne sem t beat rate e id
      let (rest, e₂) := tickLoop t beat rate ids e₁
      (cbs ++ rest, e₂)

/-- `tick`. -/
def tick (beat : B) (rate : F) (e : Engine I M O) : List (I × O) × Engine I M O :=
  tickLoop sem e.table beat rate e.table.tickOrder e

/-- One call: its callbacks and the engine after it. -/
def step (e : Engine I M O) : EngineOp I K M B F → List (I × O) × Engine I M O
  | .control op => ([], e.control op)
  | .updateParam id key value => ([], e.updateParam sem id key value)
  | .tick beat rate => e.tick sem beat rate

/-- The engine after a sequence of calls. -/
def after (e : Engine I M O) (ops : List (EngineOp I K M B F)) : Engine I M O :=
  ops.foldl (fun e op => (e.step sem op).2) e

/-- For each call of a sequence, its callbacks and the size after it. -/
def trace (e : Engine I M O) : List (EngineOp I K M B F) → List (List (I × O) × Nat)
  | [] => []
  | op :: ops => ((e.step sem op).1, (e.step sem op).2.size) :: trace (e.step sem op).2 ops

end Engine

/-! ## The reference -/

/-- Modulators in insertion order, and the latest output of each id. -/
structure RefEngine (I M O : Type*) where
  mods : List (I × M)
  outputs : I → Option O

namespace RefEngine

variable {I K M O B F : Type*} [DecidableEq I]

/-- Replace in place, or append. -/
def start (r : RefEngine I M O) (id : I) (mod : M) : RefEngine I M O :=
  if id ∈ r.mods.map Prod.fst then
    { r with mods := r.mods.map fun p => if p.1 = id then (p.1, mod) else p }
  else { r with mods := r.mods ++ [(id, mod)] }

def stop (r : RefEngine I M O) (id : I) : RefEngine I M O :=
  { r with mods := r.mods.filter fun p => p.1 ≠ id }

def control (r : RefEngine I M O) : TableOp I M → RefEngine I M O
  | .start id mod => r.start id mod
  | .stop id => r.stop id

variable (sem : ModulatorSem I K M O B F)

def updateParam (r : RefEngine I M O) (id : I) (key : K) (value : F) : RefEngine I M O :=
  { r with mods := r.mods.map fun p => if p.1 = id then (p.1, sem.update key value p.2) else p }

/-- Run the list front to back, each modulator on the outputs recorded so far. -/
def tickList (beat : B) (rate : F) :
    List (I × M) → (I → Option O) → List (I × O) × List (I × M) × (I → Option O)
  | [], outs => ([], [], outs)
  | (id, m) :: ms, outs =>
      let (out, m') := sem.tick outs beat rate m
      let (cbs, ms', outs') := tickList beat rate ms (Function.update outs id (some out))
      ((id, out) :: cbs, (id, m') :: ms', outs')

def tick (beat : B) (rate : F) (r : RefEngine I M O) : List (I × O) × RefEngine I M O :=
  let (cbs, ms, outs) := tickList sem beat rate r.mods r.outputs
  (cbs, ⟨ms, outs⟩)

def step (r : RefEngine I M O) : EngineOp I K M B F → List (I × O) × RefEngine I M O
  | .control op => ([], r.control op)
  | .updateParam id key value => ([], r.updateParam sem id key value)
  | .tick beat rate => r.tick sem beat rate

def trace (r : RefEngine I M O) : List (EngineOp I K M B F) → List (List (I × O) × Nat)
  | [] => []
  | op :: ops =>
      ((r.step sem op).1, (r.step sem op).2.mods.length) :: trace (r.step sem op).2 ops

end RefEngine

/-! ## The simulation relation -/

section Simulation

variable {I K M O B F : Type*} [DecidableEq I]

/-- The table's id holds the object `m` on the heap. -/
def Holds (t : Table I) (heap : List M) (p : I × M) : Prop :=
  ∃ ref, t.mods.lookup p.1 = some ref ∧ heap[ref]? = some p.2

/-- `tick_order` and `mods` have the same ids, once each; every id has an object
    of its own; and the reference lists these objects in tick order. -/
structure Simulates (e : Engine I M O) (r : RefEngine I M O) : Prop where
  nodup : e.table.tickOrder.Nodup
  keys : ∀ id, id ∈ e.table.mods ↔ id ∈ e.table.tickOrder
  inj : ∀ id id' ref, e.table.mods.lookup id = some ref → e.table.mods.lookup id' = some ref →
    id = id'
  order : r.mods.map Prod.fst = e.table.tickOrder
  objects : ∀ p ∈ r.mods, Holds e.table e.heap p
  outputs : e.lastOutputs = r.outputs

variable {e : Engine I M O} {r : RefEngine I M O}

theorem Simulates.mem_mods (h : Simulates e r) (id : I) :
    id ∈ e.table.mods ↔ id ∈ r.mods.map Prod.fst := by
  rw [h.keys, h.order]

theorem Simulates.size_eq (h : Simulates e r) : e.size = r.mods.length := by
  have hperm : e.table.mods.keys.Perm e.table.tickOrder := by
    rw [List.perm_ext_iff_of_nodup e.table.mods.keys_nodup h.nodup]
    intro id
    rw [← AList.mem_keys]
    exact h.keys id
  rw [Engine.size, hperm.length_eq, ← h.order, List.length_map]

/-- Every address in the table is one of the heap. -/
theorem Simulates.ref_lt (h : Simulates e r) {id : I} {ref : Nat}
    (hl : e.table.mods.lookup id = some ref) : ref < e.heap.length := by
  have hmem : id ∈ e.table.mods := by
    rw [← AList.lookup_isSome, hl]
    rfl
  rw [h.mem_mods, List.mem_map] at hmem
  obtain ⟨p, hp, rfl⟩ := hmem
  obtain ⟨ref', hl', hobj⟩ := h.objects p hp
  rw [hl, Option.some.injEq] at hl'
  rw [hl']
  exact (List.getElem?_eq_some_iff.mp hobj).1

theorem simulates_fresh : Simulates (Engine.fresh : Engine I M O) ⟨[], fun _ => none⟩ := by
  refine ⟨List.nodup_nil, ?_, ?_, rfl, ?_, rfl⟩
  · intro id
    show id ∈ (∅ : AList fun _ : I => Nat) ↔ id ∈ []
    simp
  · intro id id' ref hl
    cases hl
  · intro p hp
    cases hp

/-! ### Table operations -/

/-- An object keeps its address when another id is given a new object. -/
theorem Holds.start_ne {p : I × M} {id : I} {mod : M} (h : Holds e.table e.heap p)
    (hne : p.1 ≠ id) : Holds (e.start id mod).table (e.start id mod).heap p := by
  obtain ⟨ref, hl, hobj⟩ := h
  refine ⟨ref, ?_, ?_⟩
  · show (e.table.mods.insert id e.heap.length).lookup p.1 = some ref
    rw [AList.lookup_insert_ne hne]
    exact hl
  · have hlt := (List.getElem?_eq_some_iff.mp hobj).1
    show (e.heap ++ [mod])[ref]? = some p.2
    rw [List.getElem?_append_left hlt]
    exact hobj

/-- The new object is at the end of the heap. -/
theorem holds_start_self (e : Engine I M O) (id : I) (mod : M) :
    Holds (e.start id mod).table (e.start id mod).heap (id, mod) := by
  refine ⟨e.heap.length, AList.lookup_insert _, ?_⟩
  show (e.heap ++ [mod])[e.heap.length]? = some mod
  simp

/-- Addresses stay distinct: the new one is past all old ones. -/
theorem Simulates.inj_start (h : Simulates e r) (id : I) (mod : M) (a b : I) (ref : Nat)
    (ha : (e.start id mod).table.mods.lookup a = some ref)
    (hb : (e.start id mod).table.mods.lookup b = some ref) : a = b := by
  have hold : ∀ c, c ≠ id → (e.start id mod).table.mods.lookup c = some ref →
      e.table.mods.lookup c = some ref := by
    intro c hc hl
    rwa [Engine.start, AList.lookup_insert_ne hc] at hl
  have hnew : (e.start id mod).table.mods.lookup id = some e.heap.length :=
    AList.lookup_insert _
  by_cases hai : a = id
  · by_cases hbi : b = id
    · rw [hai, hbi]
    · rw [hai, hnew, Option.some.injEq] at ha
      have := h.ref_lt (hold b hbi hb)
      omega
  · by_cases hbi : b = id
    · rw [hbi, hnew, Option.some.injEq] at hb
      have := h.ref_lt (hold a hai ha)
      omega
    · exact h.inj a b ref (hold a hai ha) (hold b hbi hb)

/-- A known id is replaced in place: both keep their order. -/
theorem simulates_replace (h : Simulates e r) {id : I} (mod : M)
    (hmem : id ∈ r.mods.map Prod.fst) : Simulates (e.start id mod) (r.start id mod) := by
  have hin : id ∈ e.table.mods := (h.mem_mods id).mpr hmem
  have horder : (e.start id mod).table.tickOrder = e.table.tickOrder := by
    have hsome := AList.lookup_isSome.mpr hin
    show (if (e.table.mods.lookup id).isNone then _ else e.table.tickOrder) = _
    rw [if_neg]
    rw [Option.isNone_iff_eq_none]
    intro hnone
    rw [hnone] at hsome
    cases hsome
  have hmods : (r.start id mod).mods =
      r.mods.map fun p => if p.1 = id then (p.1, mod) else p := by
    rw [RefEngine.start, if_pos hmem]
  have houts : (r.start id mod).outputs = r.outputs := by
    rw [RefEngine.start, if_pos hmem]
  -- the order stays, the keys stay, and only the entry of `id` points to the new object
  refine ⟨?_, ?_, h.inj_start id mod, ?_, ?_, ?_⟩
  · rw [horder]
    exact h.nodup
  · intro a
    rw [horder, ← h.keys]
    show a ∈ e.table.mods.insert id e.heap.length ↔ _
    rw [AList.mem_insert]
    constructor
    · rintro (rfl | ha)
      · exact hin
      · exact ha
    · exact .inr
  · rw [horder, ← h.order, hmods, List.map_map]
    apply List.map_congr_left
    intro p _
    show (if p.1 = id then (p.1, mod) else p).1 = p.1
    split <;> rfl
  · intro p hp
    rw [hmods, List.mem_map] at hp
    obtain ⟨q, hq, rfl⟩ := hp
    by_cases hqi : q.1 = id
    · rw [if_pos hqi, hqi]
      exact holds_start_self e id mod
    · rw [if_neg hqi]
      exact (h.objects q hq).start_ne hqi
  · rw [houts]
    exact h.outputs

/-- A new id is appended to both. -/
theorem simulates_append (h : Simulates e r) {id : I} (mod : M)
    (hmem : id ∉ r.mods.map Prod.fst) : Simulates (e.start id mod) (r.start id mod) := by
  have hnotin : id ∉ e.table.mods := fun hin => hmem ((h.mem_mods id).mp hin)
  have horder : (e.start id mod).table.tickOrder = e.table.tickOrder ++ [id] := by
    show (if (e.table.mods.lookup id).isNone then e.table.tickOrder ++ [id] else _) = _
    rw [if_pos]
    rw [AList.lookup_eq_none.mpr hnotin]
    rfl
  have hmods : (r.start id mod).mods = r.mods ++ [(id, mod)] := by
    rw [RefEngine.start, if_neg hmem]
  have houts : (r.start id mod).outputs = r.outputs := by
    rw [RefEngine.start, if_neg hmem]
  have hfresh : id ∉ e.table.tickOrder := fun hin => hnotin ((h.keys id).mpr hin)
  -- `id` comes last in both, and neither had an entry for it
  refine ⟨?_, ?_, h.inj_start id mod, ?_, ?_, ?_⟩
  · rw [horder, List.nodup_append]
    refine ⟨h.nodup, List.nodup_singleton id, ?_⟩
    rintro a ha b hb rfl
    rw [List.mem_singleton] at hb
    exact hfresh (hb ▸ ha)
  · intro a
    rw [horder, List.mem_append, List.mem_singleton, ← h.keys]
    show a ∈ e.table.mods.insert id e.heap.length ↔ _
    rw [AList.mem_insert]
    exact or_comm
  · rw [horder, hmods, List.map_append, h.order]
    rfl
  · intro p hp
    rw [hmods, List.mem_append, List.mem_singleton] at hp
    rcases hp with hp | rfl
    · apply (h.objects p hp).start_ne
      rintro rfl
      exact hmem (List.mem_map_of_mem hp)
    · exact holds_start_self e id mod
  · rw [houts]
    exact h.outputs

theorem simulates_start (h : Simulates e r) (id : I) (mod : M) :
    Simulates (e.start id mod) (r.start id mod) := by
  by_cases hmem : id ∈ r.mods.map Prod.fst
  · exact simulates_replace h mod hmem
  · exact simulates_append h mod hmem

theorem simulates_stop (h : Simulates e r) (id : I) : Simulates (e.stop id) (r.stop id) := by
  have hlookup : ∀ a ref, (e.stop id).table.mods.lookup a = some ref →
      a ≠ id ∧ e.table.mods.lookup a = some ref := by
    intro a ref hl
    by_cases hai : a = id
    · rw [hai, Engine.stop, AList.lookup_erase] at hl
      cases hl
    · rw [Engine.stop, AList.lookup_erase_ne hai] at hl
      exact ⟨hai, hl⟩
  refine ⟨h.nodup.filter _, ?_, ?_, ?_, ?_, h.outputs⟩
  · intro a
    show a ∈ e.table.mods.erase id ↔ a ∈ e.table.tickOrder.filter (· ≠ id)
    rw [AList.mem_erase, List.mem_filter, h.keys, and_comm, decide_eq_true_iff]
  · intro a b ref ha hb
    exact h.inj a b ref (hlookup a ref ha).2 (hlookup b ref hb).2
  · show (r.mods.filter fun p => p.1 ≠ id).map Prod.fst = e.table.tickOrder.filter (· ≠ id)
    rw [← h.order, List.filter_map]
    rfl
  · intro p hp
    rw [RefEngine.stop, List.mem_filter, decide_eq_true_iff] at hp
    obtain ⟨ref, hl, hobj⟩ := h.objects p hp.1
    refine ⟨ref, ?_, hobj⟩
    show (e.table.mods.erase id).lookup p.1 = some ref
    rw [AList.lookup_erase_ne hp.2]
    exact hl

theorem simulates_control (h : Simulates e r) (op : TableOp I M) :
    Simulates (e.control op) (r.control op) := by
  cases op with
  | start id mod => exact simulates_start h id mod
  | stop id => exact simulates_stop h id

/-! ### Parameter updates -/

variable (sem : ModulatorSem I K M O B F)

/-- Replacing the modulator of an id changes no other object. -/
theorem simulates_updateParam (h : Simulates e r) (id : I) (key : K) (value : F) :
    Simulates (e.updateParam sem id key value) (r.updateParam sem id key value) := by
  rw [Engine.updateParam]
  have hfst : ∀ p ∈ r.mods,
      (if p.1 = id then (p.1, sem.update key value p.2) else p).1 = p.1 := by
    intro p _
    split <;> rfl
  have horder : (r.updateParam sem id key value).mods.map Prod.fst = r.mods.map Prod.fst := by
    show (r.mods.map _).map Prod.fst = r.mods.map Prod.fst
    rw [List.map_map]
    exact List.map_congr_left hfst
  split
  · rename_i hnone
    -- an unknown id: the reference changes nothing either
    refine ⟨h.nodup, h.keys, h.inj, ?_, ?_, h.outputs⟩
    · rw [horder]
      exact h.order
    · intro p hp
      rw [RefEngine.updateParam, List.mem_map] at hp
      obtain ⟨q, hq, rfl⟩ := hp
      by_cases hqi : q.1 = id
      · obtain ⟨ref, hl, -⟩ := h.objects q hq
        rw [hqi, hnone] at hl
        cases hl
      · rw [if_neg hqi]
        exact h.objects q hq
  · rename_i ref href
    refine ⟨h.nodup, h.keys, h.inj, ?_, ?_, h.outputs⟩
    · rw [horder]
      exact h.order
    · intro p hp
      rw [RefEngine.updateParam, List.mem_map] at hp
      obtain ⟨q, hq, rfl⟩ := hp
      obtain ⟨ref', hl, hobj⟩ := h.objects q hq
      refine ⟨ref', ?_, ?_⟩
      · rw [hfst q hq]
        exact hl
      · show (e.heap.modify ref (sem.update key value))[ref']? = _
        rw [List.getElem?_modify, hobj]
        show some (if ref = ref' then sem.update key value q.2 else q.2) = _
        by_cases hqi : q.1 = id
        · rw [hqi, href, Option.some.injEq] at hl
          rw [if_pos hqi, if_pos hl]
        · have hne : ref ≠ ref' := by
            rintro rfl
            exact hqi (h.inj q.1 id ref hl href)
          rw [if_neg hqi, if_neg hne]

/-! ### Ticks -/

/-- One round on an id that holds `m` ticks `m`. -/
theorem tickOne_eq {t : Table I} {id : I} {m : M} {ref : Nat} (beat : B) (rate : F)
    (hl : t.mods.lookup id = some ref) (hobj : e.heap[ref]? = some m) :
    Engine.tickOne sem t beat rate e id =
      ([(id, (sem.tick e.lastOutputs beat rate m).1)],
        { e with
          heap := e.heap.set ref (sem.tick e.lastOutputs beat rate m).2
          lastOutputs := Function.update e.lastOutputs id
            (some (sem.tick e.lastOutputs beat rate m).1) }) := by
  simp only [Engine.tickOne, hl, hobj, Option.bind_some, Option.map_some]

/-- Storing an object at the address of an id leaves the objects of the others. -/
theorem Holds.set_ne {t : Table I} {heap : List M} {p : I × M} {id : I} {ref : Nat} (m : M)
    (hinj : ∀ id id' ref, t.mods.lookup id = some ref → t.mods.lookup id' = some ref → id = id')
    (hl : t.mods.lookup id = some ref) (hne : p.1 ≠ id) (h : Holds t heap p) :
    Holds t (heap.set ref m) p := by
  obtain ⟨ref', hl', hobj⟩ := h
  have hrefs : ref ≠ ref' := by
    rintro rfl
    exact hne (hinj p.1 id ref hl' hl)
  refine ⟨ref', hl', ?_⟩
  rw [List.getElem?_set_ne hrefs]
  exact hobj

theorem holds_set_self {t : Table I} {heap : List M} {id : I} {ref : Nat} (m : M)
    (hl : t.mods.lookup id = some ref) (hlt : ref < heap.length) :
    Holds t (heap.set ref m) (id, m) :=
  ⟨ref, hl, List.getElem?_set_self hlt⟩

/-- The loop over the ids of `ms` runs `ms` front to back.  The induction carries
    that the modulators still to run are untouched on the heap, which holds
    because no two ids share an address. -/
theorem tickLoop_eq {t : Table I} (beat : B) (rate : F)
    (hinj : ∀ id id' ref, t.mods.lookup id = some ref → t.mods.lookup id' = some ref → id = id')
    (ms : List (I × M)) (hnodup : (ms.map Prod.fst).Nodup) (e : Engine I M O)
    (hobj : ∀ p ∈ ms, Holds t e.heap p) :
    ∃ heap', Engine.tickLoop sem t beat rate (ms.map Prod.fst) e =
        ((RefEngine.tickList sem beat rate ms e.lastOutputs).1,
          { e with
            heap := heap'
            lastOutputs := (RefEngine.tickList sem beat rate ms e.lastOutputs).2.2 }) ∧
      (∀ p ∈ (RefEngine.tickList sem beat rate ms e.lastOutputs).2.1, Holds t heap' p) ∧
      ∀ p : I × M, p.1 ∉ ms.map Prod.fst → Holds t e.heap p → Holds t heap' p := by
  induction ms generalizing e with
  | nil =>
      refine ⟨e.heap, rfl, ?_, ?_⟩
      · intro p hp
        cases hp
      · intro p _ hp
        exact hp
  | cons q ms ih =>
      obtain ⟨id, m⟩ := q
      rw [List.map_cons, List.nodup_cons] at hnodup
      obtain ⟨hid, hnodup⟩ := hnodup
      obtain ⟨ref, hl, hm⟩ := hobj (id, m) (List.mem_cons_self ..)
      have hlt := (List.getElem?_eq_some_iff.mp hm).1
      have hone := tickOne_eq sem beat rate hl hm
      set out := (sem.tick e.lastOutputs beat rate m).1 with hout
      set m' := (sem.tick e.lastOutputs beat rate m).2 with hm'
      set e₁ : Engine I M O :=
        { e with
          heap := e.heap.set ref m'
          lastOutputs := Function.update e.lastOutputs id (some out) } with he₁
      -- what the round leaves of the other objects
      have hother : ∀ p : I × M, p.1 ≠ id → Holds t e.heap p → Holds t e₁.heap p :=
        fun p hp hold => hold.set_ne m' hinj hl hp
      have hself : Holds t e₁.heap (id, m') := holds_set_self m' hl hlt
      have hrest : ∀ p ∈ ms, Holds t e₁.heap p := by
        intro p hp
        apply hother p
        · intro hpid
          have hmem : p.1 ∈ ms.map Prod.fst := List.mem_map_of_mem hp
          rw [hpid] at hmem
          exact hid hmem
        · exact hobj p (List.mem_cons_of_mem _ hp)
      obtain ⟨heap', heq, hdone, hframe⟩ := ih hnodup e₁ hrest
      refine ⟨heap', ?_, ?_, ?_⟩
      · simp only [List.map_cons, Engine.tickLoop, hone, heq, RefEngine.tickList]
        rfl
      · intro p hp
        simp only [RefEngine.tickList, List.mem_cons] at hp
        rcases hp with rfl | hp
        · exact hframe (id, m') hid hself
        · exact hdone p hp
      · intro p hp hold
        rw [List.map_cons, List.mem_cons, not_or] at hp
        exact hframe p hp.2 (hother p hp.1 hold)

theorem tickList_ids (beat : B) (rate : F) (ms : List (I × M)) (outs : I → Option O) :
    (RefEngine.tickList sem beat rate ms outs).2.1.map Prod.fst = ms.map Prod.fst := by
  induction ms generalizing outs with
  | nil => rfl
  | cons q ms ih =>
      simp only [RefEngine.tickList, List.map_cons]
      rw [ih]

theorem simulates_tick (h : Simulates e r) (beat : B) (rate : F) :
    (e.tick sem beat rate).1 = (r.tick sem beat rate).1 ∧
      Simulates (e.tick sem beat rate).2 (r.tick sem beat rate).2 := by
  have hnodup : (r.mods.map Prod.fst).Nodup := by
    rw [h.order]
    exact h.nodup
  obtain ⟨heap', heq, hdone, -⟩ :=
    tickLoop_eq sem beat rate h.inj r.mods hnodup e h.objects
  rw [Engine.tick, ← h.order, heq, h.outputs]
  refine ⟨rfl, h.nodup, h.keys, h.inj, ?_, ?_, rfl⟩
  · show (RefEngine.tickList sem beat rate r.mods r.outputs).2.1.map Prod.fst = _
    rw [tickList_ids]
    exact h.order
  · rw [h.outputs] at hdone
    exact hdone

/-! ### Runs -/

theorem simulates_step (h : Simulates e r) (op : EngineOp I K M B F) :
    (e.step sem op).1 = (r.step sem op).1 ∧
      Simulates (e.step sem op).2 (r.step sem op).2 := by
  cases op with
  | control op => exact ⟨rfl, simulates_control h op⟩
  | updateParam id key value => exact ⟨rfl, simulates_updateParam sem h id key value⟩
  | tick beat rate => exact simulates_tick sem h beat rate

theorem trace_eq (h : Simulates e r) (ops : List (EngineOp I K M B F)) :
    e.trace sem ops = r.trace sem ops := by
  induction ops generalizing e r with
  | nil => rfl
  | cons op ops ih =>
      obtain ⟨hcbs, hsim⟩ := simulates_step sem h op
      rw [Engine.trace, RefEngine.trace, hcbs, hsim.size_eq, ih hsim]

theorem simulates_after (ops : List (EngineOp I K M B F)) :
    ∃ r : RefEngine I M O, Simulates ((Engine.fresh : Engine I M O).after sem ops) r := by
  have hgen : ∀ (ops : List (EngineOp I K M B F)) (e : Engine I M O) (r : RefEngine I M O),
      Simulates e r → ∃ r', Simulates (e.after sem ops) r' := by
    intro ops
    induction ops with
    | nil => exact fun e r h => ⟨r, h⟩
    | cons op ops ih => exact fun e r h => ih _ _ (simulates_step sem h op).2
  exact hgen ops _ _ simulates_fresh

end Simulation

/-! ## Ticks under way -/

section Flight

variable {I K M O B F : Type*} [DecidableEq I] (sem : ModulatorSem I K M O B F)

/-- What can happen while a tick is under way: its next round, or a call that
    installs a new table. -/
inductive FlightEvent (I M : Type*) where
  | round
  | control (op : TableOp I M)

/-- The calls among the events. -/
def FlightEvent.op? {I M : Type*} : FlightEvent I M → Option (TableOp I M)
  | .round => none
  | .control op => some op

/-- A tick that has loaded `t` and has `ids` left: the callbacks made, the ids
    still left and the engine after the events. -/
def flight (t : Table I) (beat : B) (rate : F) :
    List (FlightEvent I M) → List I → Engine I M O → List (I × O) × List I × Engine I M O
  | [], ids, e => ([], ids, e)
  | .round :: evs, [], e => flight t beat rate evs [] e
  | .round :: evs, id :: ids, e =>
      let (cbs, e₁) := Engine.tickOne sem t beat rate e id
      let (rest, left, e₂) := flight t beat rate evs ids e₁
      (cbs ++ rest, left, e₂)
  | .control op :: evs, ids, e => flight t beat rate evs ids (e.control op)

/-- The addresses of a loaded table stay below the heap's end. -/
def Loaded (t : Table I) (e : Engine I M O) : Prop :=
  ∀ id ref, t.mods.lookup id = some ref → ref < e.heap.length

variable {t : Table I} {e : Engine I M O}

theorem length_heap_tickOne (beat : B) (rate : F) (id : I) :
    (Engine.tickOne sem t beat rate e id).2.heap.length = e.heap.length := by
  rw [Engine.tickOne]
  split
  · rfl
  · show (e.heap.set _ _).length = _
    rw [List.length_set]

theorem Loaded.tickOne (h : Loaded t e) (beat : B) (rate : F) (id : I) :
    Loaded t (Engine.tickOne sem t beat rate e id).2 := by
  intro a ref hl
  rw [length_heap_tickOne]
  exact h a ref hl

theorem Loaded.control (h : Loaded t e) (op : TableOp I M) : Loaded t (e.control op) := by
  intro a ref hl
  have hlt := h a ref hl
  cases op with
  | start id mod =>
      show ref < (e.heap ++ [mod]).length
      rw [List.length_append]
      omega
  | stop id => exact hlt

/-- A round and a call that installs a table commute: the round only looks at the
    loaded table and at objects that were there before. -/
theorem tickOne_control (h : Loaded t e) (beat : B) (rate : F) (id : I) (op : TableOp I M) :
    Engine.tickOne sem t beat rate (e.control op) id =
      ((Engine.tickOne sem t beat rate e id).1,
        (Engine.tickOne sem t beat rate e id).2.control op) := by
  cases hl : t.mods.lookup id with
  | none => simp only [Engine.tickOne, hl, Option.bind_none]
  | some ref =>
      have hlt := h id ref hl
      obtain ⟨m, hm⟩ : ∃ m, e.heap[ref]? = some m := ⟨_, List.getElem?_eq_getElem hlt⟩
      rw [tickOne_eq sem beat rate hl hm]
      cases op with
      | stop a =>
          rw [tickOne_eq sem beat rate hl (show (e.control (.stop a)).heap[ref]? = some m from hm)]
          rfl
      | start a mod =>
          have hm' : (e.control (.start a mod)).heap[ref]? = some m := by
            show (e.heap ++ [mod])[ref]? = some m
            rw [List.getElem?_append_left hlt]
            exact hm
          rw [tickOne_eq sem beat rate hl hm']
          simp only [Engine.control, Engine.start, List.length_set]
          rw [List.set_append_left _ _ hlt]

/-- Carried over the rest of the loop. -/
theorem tickLoop_control (h : Loaded t e) (beat : B) (rate : F) (ids : List I)
    (op : TableOp I M) :
    Engine.tickLoop sem t beat rate ids (e.control op) =
      ((Engine.tickLoop sem t beat rate ids e).1,
        (Engine.tickLoop sem t beat rate ids e).2.control op) := by
  induction ids generalizing e with
  | nil => rfl
  | cons id ids ih =>
      simp only [Engine.tickLoop, tickOne_control sem h beat rate id op]
      rw [ih (h.tickOne sem beat rate id)]

/-- A tick overtaken by calls is the undisturbed tick followed by the calls. -/
theorem flight_eq (h : Loaded t e) (beat : B) (rate : F) (evs : List (FlightEvent I M))
    (ids : List I) (hleft : (flight sem t beat rate evs ids e).2.1 = []) :
    (flight sem t beat rate evs ids e).1 = (Engine.tickLoop sem t beat rate ids e).1 ∧
      (flight sem t beat rate evs ids e).2.2 =
        (evs.filterMap FlightEvent.op?).foldl Engine.control
          (Engine.tickLoop sem t beat rate ids e).2 := by
  induction evs generalizing ids e with
  | nil =>
      have hids : ids = [] := hleft
      rw [hids]
      exact ⟨rfl, rfl⟩
  | cons ev evs ih =>
      cases ev with
      | round =>
          cases ids with
          | nil => exact ih h [] hleft
          | cons id ids =>
              simp only [flight, Engine.tickLoop] at hleft ⊢
              obtain ⟨hcbs, heng⟩ := ih (h.tickOne sem beat rate id) ids hleft
              rw [hcbs, heng]
              exact ⟨rfl, rfl⟩
      | control op =>
          simp only [flight] at hleft ⊢
          obtain ⟨hcbs, heng⟩ := ih (h.control op) ids hleft
          rw [hcbs, heng, tickLoop_control sem h]
          exact ⟨rfl, rfl⟩

end Flight

/-- The engine is an insertion-ordered list of modulators with sequential output
    feedback.  Over every sequence of calls on a new engine, the callbacks and
    sizes are those of the reference; `tick_order` has no duplicate and exactly
    the keys of `mods`; and a tick overtaken by `start` and `stop` calls makes the
    callbacks it would have made alone and leaves what it would have left had it
    run before them. -/
theorem modulator_engine_refines {I K M O B F : Type*} [DecidableEq I]
    (sem : ModulatorSem I K M O B F) (ops : List (EngineOp I K M B F)) :
    (Engine.fresh : Engine I M O).trace sem ops =
      RefEngine.trace sem ⟨[], fun _ => none⟩ ops ∧
    ∀ e, e = (Engine.fresh : Engine I M O).after sem ops →
      e.table.tickOrder.Nodup ∧ (∀ id, id ∈ e.table.mods ↔ id ∈ e.table.tickOrder) ∧
      ∀ (beat : B) (rate : F) (evs : List (FlightEvent I M)),
        (flight sem e.table beat rate evs e.table.tickOrder e).2.1 = [] →
          (flight sem e.table beat rate evs e.table.tickOrder e).1 = (e.tick sem beat rate).1 ∧
          (flight sem e.table beat rate evs e.table.tickOrder e).2.2 =
            (evs.filterMap FlightEvent.op?).foldl Engine.control (e.tick sem beat rate).2 := by
  refine ⟨trace_eq sem simulates_fresh ops, ?_⟩
  rintro e rfl
  obtain ⟨r, hr⟩ := simulates_after (O := O) sem ops
  refine ⟨hr.nodup, hr.keys, ?_⟩
  intro beat rate evs hleft
  exact flight_eq sem (fun _ _ hl => hr.ref_lt hl) beat rate evs _ hleft

end NomosRt.Modulator
