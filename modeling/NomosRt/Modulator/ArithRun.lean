/-
  NomosRt.Modulator.ArithRun

  The arithmetic of the built-in modulators over runs of messages and ticks.

  Every operation of a run is defined just if every event of it meets a condition in the
  state before it: the numbers of a message are in range, and in a tick so are the segments
  of `segment` and the bounds of `:clamp`.
-/

import NomosRt.Modulator.ArithFits
import NomosRt.Modulator.Messages

namespace NomosRt.Modulator

open NomosRt.Lib CFloat CMath CTruncated

/-! ## Runs -/

/-- An engine of built-in modulators. -/
abbrev BuiltinEngine (F : Type*) := Engine (List Byte) (BuiltinModulator F) (ModulatorOutput F)

/-- What reaches the engine: a message, or a tick. -/
inductive ModulatorEvent (D F : Type*) where
  | message (type : Byte) (payload : List Byte)
  | tick (beat : D) (rate : F)

section Operations

variable {D F : Type*} [CMath F] [CNarrow D F] [CTrunc D]

/-- The handlers without a registry. -/
def builtinConfig (parse : List Byte → Option (Edn D)) :
    ModulatorConfig D F (BuiltinModulator F) (ModulatorOutput F) :=
  ⟨builtinSem, id, fun _ => none, parse⟩

/-- The engine after an event. -/
def eventStep (parse : List Byte → Option (Edn D)) (e : BuiltinEngine F) :
    ModulatorEvent D F → BuiltinEngine F
  | .message type payload => dispatchModulator (builtinConfig parse) type payload e
  | .tick beat rate => (e.tick builtinSem beat rate).2

/-- `msg_modulator_start`. -/
def startMessageArith (m : Entries D) : List (Arith D F) :=
  match Edn.findKw "id" m, Edn.findKw "type" m with
  | some idV, some typeV =>
      if modulatorId idV = [] then [] else buildArith ((keywordName typeV).getD "") m
  | _, _ => []

/-- The `update_param` of `msg_modulator_update`. -/
def updateParamArith (e : BuiltinEngine F) (id key : List Byte) (x : F) : List (Arith D F) :=
  match e.modulator id, keyText key with
  | some mod, some name => mod.updateArith name x
  | _, _ => []

/-- `msg_modulator_update`. -/
def updateMessageArith (m : Entries D) (e : BuiltinEngine F) : List (Arith D F) :=
  match Edn.findKw "id" m, Edn.findKw "key" m, Edn.findKw "value" m with
  | some idV, some keyV, some valueV =>
      if modulatorId idV = [] ∨ modulatorId keyV = [] then []
      else updateParamArith e (modulatorId idV) (modulatorId keyV) ((number valueV).getD (lit 0))
  | _, _, _ => []

/-- `dispatch_message`. -/
def messageArith (parse : List Byte → Option (Edn D)) (type : Byte) (payload : List Byte)
    (e : BuiltinEngine F) : List (Arith D F) :=
  if payload = [] then []
  else
    match parse payload with
    | some (.map m) =>
        if type = msgModulatorStart then startMessageArith m
        else if type = msgModulatorUpdate then updateMessageArith m e
        else []
    | _ => []

/-- `last_output` by name. -/
def outputView (e : BuiltinEngine F) : OutputView F := fun name => e.lastOutputs (nameBytes name)

/-- The loop of `tick` over the ids that are left. -/
def loopArith (t : Table (List Byte)) (beat : D) (rate : F) :
    List (List Byte) → BuiltinEngine F → List (Arith D F)
  | [], _ => []
  | id :: ids, e =>
      (match (t.mods.lookup id).bind fun ref => e.heap[ref]? with
        | some mod => mod.tickArith (outputView e) beat rate
        | none => []) ++
        loopArith t beat rate ids (Engine.tickOne builtinSem t beat rate e id).2

/-- The operations of an event. -/
def eventArith (parse : List Byte → Option (Edn D)) (e : BuiltinEngine F) :
    ModulatorEvent D F → List (Arith D F)
  | .message type payload => messageArith parse type payload e
  | .tick beat rate => loopArith e.table beat rate e.table.tickOrder e

/-- The operations of a run. -/
def runArith (parse : List Byte → Option (Edn D)) :
    BuiltinEngine F → List (ModulatorEvent D F) → List (Arith D F)
  | _, [] => []
  | e, ev :: evs => eventArith parse e ev ++ runArith parse (eventStep parse e ev) evs

end Operations

section Conditions

variable {D F : Type*} [CMath F] [CNarrow D F] [CTruncated F] [CTruncated D]

/-- The condition on `msg_modulator_start`. -/
def StartMessageFits (F : Type*) [CMath F] [CNarrow D F] [CTruncated F] (m : Entries D) : Prop :=
  ∀ idV typeV, Edn.findKw "id" m = some idV → Edn.findKw "type" m = some typeV →
    modulatorId idV ≠ [] → StartFits F ((keywordName typeV).getD "") m

/-- The condition on `msg_modulator_update`: a number for a parameter that is rounded has a
    rounded value in the range of `int`. -/
def UpdateMessageFits (m : Entries D) (e : BuiltinEngine F) : Prop :=
  ∀ idV keyV valueV mod name (x : F), Edn.findKw "id" m = some idV →
    Edn.findKw "key" m = some keyV → Edn.findKw "value" m = some valueV →
    modulatorId idV ≠ [] → modulatorId keyV ≠ [] → e.modulator (modulatorId idV) = some mod →
    keyText (modulatorId keyV) = some name → number valueV = some x → RoundedKey name mod →
    FitsInt (truncated (round x))

/-- The condition on a message. -/
def MessageFits (parse : List Byte → Option (Edn D)) (type : Byte) (payload : List Byte)
    (e : BuiltinEngine F) : Prop :=
  payload ≠ [] → ∀ m, parse payload = some (.map m) →
    (type = msgModulatorStart → StartMessageFits F m) ∧
    (type = msgModulatorUpdate → UpdateMessageFits m e)

/-- The condition on the loop of `tick`: each modulator's, in the state in which it is reached. -/
def LoopFits (t : Table (List Byte)) (beat : D) (rate : F) :
    List (List Byte) → BuiltinEngine F → Prop
  | [], _ => True
  | id :: ids, e =>
      (∀ mod, (t.mods.lookup id).bind (fun ref => e.heap[ref]?) = some mod →
        TickFits (outputView e) beat rate mod) ∧
      LoopFits t beat rate ids (Engine.tickOne builtinSem t beat rate e id).2

/-- The condition on an event. -/
def EventFits (parse : List Byte → Option (Edn D)) (e : BuiltinEngine F) :
    ModulatorEvent D F → Prop
  | .message type payload => MessageFits parse type payload e
  | .tick beat rate => LoopFits e.table beat rate e.table.tickOrder e

/-- Every event of a run meets the condition in the state before it. -/
def RunFits [CTrunc D] (parse : List Byte → Option (Edn D)) :
    BuiltinEngine F → List (ModulatorEvent D F) → Prop
  | _, [] => True
  | e, ev :: evs => EventFits parse e ev ∧ RunFits parse (eventStep parse e ev) evs

end Conditions

/-! ## The heap along a run -/

section Heap

variable {D F : Type*} [CMath F] [CNarrow D F]

/-- Every modulator on the heap is one that a message can have started. -/
def HeapOk (e : BuiltinEngine F) : Prop := ∀ mod ∈ e.heap, GraphOk mod

omit [CNarrow D F] in
theorem heapOk_fresh : HeapOk (.fresh : BuiltinEngine F) := List.forall_mem_nil _

omit [CNarrow D F] in
theorem HeapOk.modify {e : BuiltinEngine F} (h : HeapOk e) (ref : Nat)
    {f : BuiltinModulator F → BuiltinModulator F} (hf : ∀ mod, GraphOk mod → GraphOk (f mod)) :
    ∀ mod ∈ e.heap.modify ref f, GraphOk mod := by
  intro mod hmod
  obtain ⟨i, hi⟩ := List.mem_iff_getElem?.mp hmod
  rw [List.getElem?_modify] at hi
  obtain ⟨old, hold, rfl⟩ := Option.map_eq_some_iff.mp hi
  have hok : GraphOk old := h old (List.mem_of_getElem? hold)
  split_ifs
  · exact hf old hok
  · exact hok

theorem heapOk_tickOne (t : Table (List Byte)) (beat : D) (rate : F) (id : List Byte)
    {e : BuiltinEngine F} (h : HeapOk e) :
    HeapOk (Engine.tickOne builtinSem t beat rate e id).2 := by
  unfold Engine.tickOne
  split
  · exact h
  · next ref mod hfound =>
      have hmem : mod ∈ e.heap := by
        obtain ⟨ref', -, hget⟩ := Option.bind_eq_some_iff.mp hfound
        obtain ⟨mod', hmod', hpair⟩ := Option.map_eq_some_iff.mp hget
        cases hpair
        exact List.mem_of_getElem? hmod'
      intro mod' hmod'
      rcases List.mem_or_eq_of_mem_set hmod' with hold | rfl
      · exact h mod' hold
      · exact graphOk_tick _ beat rate (h mod hmem)

theorem heapOk_tickLoop (t : Table (List Byte)) (beat : D) (rate : F) (ids : List (List Byte))
    {e : BuiltinEngine F} (h : HeapOk e) :
    HeapOk (Engine.tickLoop builtinSem t beat rate ids e).2 := by
  induction ids generalizing e with
  | nil => exact h
  | cons id ids ih => exact ih (heapOk_tickOne t beat rate id h)

variable [CTrunc D]

theorem heapOk_startMessage (parse : List Byte → Option (Edn D)) (m : Entries D)
    {e : BuiltinEngine F} (h : HeapOk e) : HeapOk (startMessage (builtinConfig parse) m e) := by
  unfold startMessage
  split
  · split_ifs
    · exact h
    · split
      · next mod hmake =>
          have hmod : GraphOk mod := by
            unfold makeModulator at hmake
            split_ifs at hmake
            · obtain ⟨built, hbuilt, rfl⟩ := Option.map_eq_some_iff.mp hmake
              exact graphOk_build hbuilt
            · cases hmake
          exact List.forall_mem_append.mpr ⟨h, List.forall_mem_singleton.mpr hmod⟩
      · exact h
  · exact h

omit [CTrunc D] in
theorem heapOk_updateParam (id key : List Byte) (x : F) {e : BuiltinEngine F} (h : HeapOk e) :
    HeapOk (e.updateParam (builtinSem (D := D)) id key x) := by
  unfold Engine.updateParam
  split
  · exact h
  · refine h.modify _ fun mod hmod => ?_
    simp only [builtinSem]
    split
    · exact graphOk_update _ x hmod
    · exact hmod

omit [CTrunc D] in
theorem heapOk_updateMessage (parse : List Byte → Option (Edn D)) (m : Entries D)
    {e : BuiltinEngine F} (h : HeapOk e) : HeapOk (updateMessage (builtinConfig parse) m e) := by
  unfold updateMessage
  split
  · split_ifs
    · exact h
    · exact heapOk_updateParam _ _ _ h
  · exact h

omit [CNarrow D F] [CTrunc D] in
theorem heapOk_stopMessage (m : Entries D) {e : BuiltinEngine F} (h : HeapOk e) :
    HeapOk (stopMessage m e) := by
  unfold stopMessage
  split
  · split_ifs <;> exact h
  · exact h

theorem heapOk_eventStep (parse : List Byte → Option (Edn D)) (ev : ModulatorEvent D F)
    {e : BuiltinEngine F} (h : HeapOk e) : HeapOk (eventStep parse e ev) := by
  cases ev with
  | tick beat rate => exact heapOk_tickLoop e.table beat rate e.table.tickOrder h
  | message type payload =>
      rw [eventStep, dispatchModulator]
      by_cases hempty : payload = []
      · rwa [if_pos hempty]
      · rw [if_neg hempty]
        split
        · next m hm =>
            split_ifs
            · exact heapOk_startMessage parse m h
            · exact heapOk_stopMessage m h
            · exact heapOk_updateMessage parse m h
            · exact h
        · exact h

end Heap

/-! ## Defined along a run -/

section Defined

variable {D F : Type*} [CMath F] [CNarrow D F] [CTrunc D] [CTruncated F] [CTruncated D]
  [LiteralExact F]

theorem startMessageArith_ok_iff (m : Entries D) :
    AllOk (startMessageArith m : List (Arith D F)) ↔ StartMessageFits F m := by
  rw [startMessageArith, StartMessageFits]
  cases hid : Edn.findKw "id" m with
  | none => simp
  | some idV =>
      cases htype : Edn.findKw "type" m with
      | none => simp
      | some typeV =>
          by_cases hempty : modulatorId idV = []
          · simp [hempty]
          · simp [hempty, buildArith_ok_iff]

omit [CNarrow D F] [CTrunc D] in
theorem updateParamArith_ok_iff (e : BuiltinEngine F) (id key : List Byte) (x : F) :
    AllOk (updateParamArith e id key x : List (Arith D F)) ↔
      ∀ mod name, e.modulator id = some mod → keyText key = some name → RoundedKey name mod →
        FitsInt (truncated (round x)) := by
  rw [updateParamArith]
  cases e.modulator id with
  | none => simp
  | some mod =>
      cases keyText key with
      | none => simp
      | some name => simp [updateArith_ok_iff]

omit [CTrunc D] [CTruncated D] in
/-- A value that is no number is read as zero, which fits. -/
theorem fitsInt_round_number_iff (v : Edn D) :
    FitsInt (truncated (round ((number v).getD (lit 0) : F))) ↔
      ∀ x : F, number v = some x → FitsInt (truncated (round x)) := by
  cases number (F := F) v with
  | none => simpa using fitsInt_round_lit (F := F) (k := 0) (by omega)
  | some x => simp

omit [CTrunc D] in
theorem updateMessageArith_ok_iff (m : Entries D) (e : BuiltinEngine F) :
    AllOk (updateMessageArith m e : List (Arith D F)) ↔ UpdateMessageFits m e := by
  rw [updateMessageArith, UpdateMessageFits]
  -- a missing field, or an empty id or key, returns before any arithmetic
  cases hid : Edn.findKw "id" m with
  | none => simp
  | some idV =>
      cases hkey : Edn.findKw "key" m with
      | none => simp
      | some keyV =>
          cases hvalue : Edn.findKw "value" m with
          | none => simp
          | some valueV =>
              dsimp only
              split_ifs with hempty
              · refine iff_of_true allOk_nil ?_
                rintro idV' keyV' valueV' mod name x hid' hkey' - hne hne'
                cases hid'
                cases hkey'
                exact absurd hempty (not_or.mpr ⟨hne, hne'⟩)
              · rw [not_or] at hempty
                rw [updateParamArith_ok_iff, fitsInt_round_number_iff]
                constructor
                · rintro h idV' keyV' valueV' mod name x hid' hkey' hvalue' - - hmod hname hx hround
                  cases hid'
                  cases hkey'
                  cases hvalue'
                  exact h mod name hmod hname hround x hx
                · intro h mod name hmod hname hround x hx
                  exact h idV keyV valueV mod name x rfl rfl rfl hempty.1 hempty.2 hmod hname hx
                    hround

theorem messageArith_ok_iff (parse : List Byte → Option (Edn D)) (type : Byte)
    (payload : List Byte) (e : BuiltinEngine F) :
    AllOk (messageArith parse type payload e) ↔ MessageFits parse type payload e := by
  rw [messageArith, MessageFits]
  by_cases hempty : payload = []
  · simp [hempty]
  · rw [if_neg hempty]
    split
    · next m hm =>
        have hfits : (payload ≠ [] → ∀ m', parse payload = some (.map m') →
            (type = msgModulatorStart → StartMessageFits F m') ∧
            (type = msgModulatorUpdate → UpdateMessageFits m' e)) ↔
            (type = msgModulatorStart → StartMessageFits F m) ∧
            (type = msgModulatorUpdate → UpdateMessageFits m e) := by
          rw [hm]
          simp [hempty]
        rw [hfits]
        split_ifs with hstart hupdate
        · rw [startMessageArith_ok_iff]
          simp [hstart, msgModulatorStart, msgModulatorUpdate]
        · rw [updateMessageArith_ok_iff]
          simp [hupdate, msgModulatorStart, msgModulatorUpdate]
        · simp [hstart, hupdate]
    · next hnone =>
        refine iff_of_true allOk_nil fun _ m hm => ?_
        exact absurd hm (hnone m)

omit [CTrunc D] in
theorem loopArith_ok_iff (t : Table (List Byte)) (beat : D) (rate : F) (ids : List (List Byte))
    {e : BuiltinEngine F} (h : HeapOk e) :
    AllOk (loopArith t beat rate ids e) ↔ LoopFits t beat rate ids e := by
  induction ids generalizing e with
  | nil => exact iff_of_true allOk_nil trivial
  | cons id ids ih =>
      rw [loopArith, LoopFits, allOk_append, ih (heapOk_tickOne t beat rate id h)]
      refine and_congr_left fun _ => ?_
      cases hmod : (t.mods.lookup id).bind fun ref => e.heap[ref]? with
      | none => simp
      | some mod =>
          obtain ⟨ref, -, hget⟩ := Option.bind_eq_some_iff.mp hmod
          have hok : GraphOk mod := h mod (List.mem_of_getElem? hget)
          simp [tickArith_ok_iff _ beat rate hok]

theorem eventArith_ok_iff (parse : List Byte → Option (Edn D)) (ev : ModulatorEvent D F)
    {e : BuiltinEngine F} (h : HeapOk e) :
    AllOk (eventArith parse e ev) ↔ EventFits parse e ev := by
  cases ev with
  | message type payload => exact messageArith_ok_iff parse type payload e
  | tick beat rate => exact loopArith_ok_iff e.table beat rate e.table.tickOrder h

theorem runArith_ok_iff (parse : List Byte → Option (Edn D)) (evs : List (ModulatorEvent D F))
    {e : BuiltinEngine F} (h : HeapOk e) :
    AllOk (runArith parse e evs) ↔ RunFits parse e evs := by
  induction evs generalizing e with
  | nil => exact iff_of_true allOk_nil trivial
  | cons ev evs ih =>
      rw [runArith, RunFits, allOk_append, eventArith_ok_iff parse ev h,
        ih (heapOk_eventStep parse ev h)]

/-- Over every sequence of messages and ticks, every conversion and every clamp that is executed is
    defined just if every event meets the condition in the state before it. -/
theorem arithmetic_defined_iff (parse : List Byte → Option (Edn D))
    (evs : List (ModulatorEvent D F)) :
    (∀ a ∈ runArith parse .fresh evs, a.Ok) ↔ RunFits parse .fresh evs :=
  runArith_ok_iff parse evs heapOk_fresh

end Defined

/-! ## Bounds that are applied too late

Exact arithmetic for both floating types. -/

section Exact

attribute [local instance] exactMath exactNarrow exactTrunc

@[reducible] def exactTruncated : CTruncated ℚ := ⟨fun x => some (exactFloat.toInt x)⟩

attribute [local instance] exactTruncated

theorem literalExact_exact : LiteralExact ℚ where
  lit_le a b h := decide_eq_true h
  truncated_lit k _ := by
    show some (if 0 ≤ (k : ℚ) then ⌊(k : ℚ)⌋ else ⌈(k : ℚ)⌉) = some (k : Int)
    rw [Int.floor_natCast, Int.ceil_natCast, ite_self]
  round_lit k _ := by
    show ((⌊(k : ℚ) + 1 / 2⌋ : Int) : ℚ) = k
    rw [Int.floor_natCast_add]
    norm_num

/-- Starts a shift register of a length. -/
def lengthStart (length : String) : List Byte :=
  ascii "\x7b:id :a :type :shift-register :length " ++ ascii length ++ ascii "\x7d"

/-- Starts a graph. -/
def graphStart (graph : String) : List Byte :=
  ascii "\x7b:id :g :type :graph :graph " ++ ascii graph ++ ascii "\x7d"

/-- What the first is read as. -/
def lengthEntries (n : Int) : Entries ℚ :=
  [(.keyword "id", .keyword "a"), (.keyword "type", .keyword "shift-register"),
    (.keyword "length", .int n)]

/-- What `[:clamp 0.5 lo hi]` is read as in the second. -/
def clampEntries (lo hi : Int) : Entries ℚ :=
  [(.keyword "id", .keyword "g"), (.keyword "type", .keyword "graph"),
    (.keyword "graph", .vector [.keyword "clamp", .double (1 / 2), .int lo, .int hi])]

/-- The parser on the payloads below. -/
def boundsParse (payload : List Byte) : Option (Edn ℚ) :=
  if payload = lengthStart "8" then some (.map (lengthEntries 8))
  else if payload = lengthStart "10000000000" then some (.map (lengthEntries 10000000000))
  else if payload = graphStart "[:clamp 0.5 0 1]" then some (.map (clampEntries 0 1))
  else if payload = graphStart "[:clamp 0.5 1 0]" then some (.map (clampEntries 1 0))
  else none

/-- A message, and a tick. -/
def startAndTick (payload : List Byte) : List (ModulatorEvent ℚ ℚ) :=
  [.message msgModulatorStart payload, .tick 0 24]

/-- A length of ten thousand million is converted to `int` before it is clamped to 32, and a graph
    clamps between bounds in the wrong order. -/
theorem bounds_too_late :
    (.convert 10000000000 ∈
        runArith boundsParse .fresh (startAndTick (lengthStart "10000000000")) ∧
      ¬ (.convert 10000000000 : Arith ℚ ℚ).Ok) ∧
    (.clamp 1 0 ∈ runArith boundsParse .fresh (startAndTick (graphStart "[:clamp 0.5 1 0]")) ∧
      ¬ (.clamp 1 0 : Arith ℚ ℚ).Ok) ∧
    ¬ ∀ (evs : List (ModulatorEvent ℚ ℚ)), ∀ a ∈ runArith boundsParse .fresh evs, a.Ok := by
  have hconvert : .convert 10000000000 ∈
      runArith boundsParse .fresh (startAndTick (lengthStart "10000000000")) := by
    decide +kernel
  have hclamp : .clamp 1 0 ∈
      runArith boundsParse .fresh (startAndTick (graphStart "[:clamp 0.5 1 0]")) := by
    decide +kernel
  have hbad : ¬ (.convert 10000000000 : Arith ℚ ℚ).Ok := by
    rintro ⟨k, hk, -, hlt⟩
    obtain rfl : (10000000000 : Int) = k := by
      rw [← Option.some.inj hk]
      decide +kernel
    omega
  have hbad' : ¬ (.clamp 1 0 : Arith ℚ ℚ).Ok := by
    show ¬ decide ((1 : ℚ) ≤ 0) = true
    norm_num
  exact ⟨⟨hconvert, hbad⟩, ⟨hclamp, hbad'⟩, fun hall => hbad (hall _ _ hconvert)⟩

/-- A length of 8, and bounds in order. -/
theorem bounds_in_time :
    (∀ a ∈ runArith boundsParse .fresh (startAndTick (lengthStart "8")), a.Ok) ∧
    ∀ a ∈ runArith boundsParse .fresh (startAndTick (graphStart "[:clamp 0.5 0 1]")), a.Ok := by
  have hexact := literalExact_exact
  constructor
  · refine (arithmetic_defined_iff boundsParse _).mpr ⟨?_, ⟨?_, trivial⟩, trivial⟩
    · rintro - m hm
      cases hm
      refine ⟨fun _ => ?_, fun hc => absurd hc (by decide)⟩
      rintro idV typeV hid htype -
      cases hid
      cases htype
      constructor
      · rintro x hx
        cases hx
        exact ⟨8, by decide +kernel, by omega, by omega⟩
      · rintro x hx
        cases hx
    · rintro mod hmod
      cases hmod
      trivial
  · refine (arithmetic_defined_iff boundsParse _).mpr ⟨?_, ⟨?_, trivial⟩, trivial⟩
    · rintro - m hm
      cases hm
      refine ⟨fun _ => ?_, fun hc => absurd hc (by decide)⟩
      rintro idV typeV hid htype -
      cases hid
      cases htype
      trivial
    · rintro mod hmod
      cases hmod
      rintro i n hn htype
      -- three constants, and the clamp
      rcases i with - | - | - | - | i
      · cases hn
        cases htype
      · cases hn
        cases htype
      · cases hn
        cases htype
      · cases hn
        decide +kernel
      · cases hn

end Exact

end NomosRt.Modulator
