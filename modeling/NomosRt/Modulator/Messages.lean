/-
  NomosRt.Modulator.Messages

  The three modulator messages and the engine: `msg_modulator_start`, `_stop` and
  `_update`.

  Every field that a message needs is looked up and tested on its own.  A message that
  fails a test leaves the engine alone, with one exception: a `:value` that is there but
  is no number is read as zero, and the parameter is set to it.  A `:type` that is no
  keyword is read as the empty name, which only a registry can know.

  Modulators are those of the engine: the built-in ones and what a registry of
  extensions makes.  `edn::parse` is a parameter.
-/

import NomosRt.Lib.CString
import NomosRt.Modulator.Engine
import NomosRt.Modulator.Literals

namespace NomosRt.Modulator

open NomosRt.Lib CFloat CMath

/-! ## The handlers -/

def msgModulatorStart : Byte := 0x46

def msgModulatorStop : Byte := 0x47

def msgModulatorUpdate : Byte := 0x48

/-- The bytes of a keyword's name. -/
def nameBytes (name : String) : List Byte :=
  (name.toList.flatMap String.utf8EncodeChar).map UInt8.toBitVec

/-- What the handlers find in `cfg_`, and the parser. -/
structure ModulatorConfig (D F M O : Type*) where
  sem : ModulatorSem (List Byte) (List Byte) M O D F
  ofBuiltin : BuiltinModulator F → M
  /-- `ext_registry->make`; nothing is made without a registry. -/
  make : String → Option M
  parse : List Byte → Option (Edn D)

/-- The names that the handler of `msg_modulator_start` tests for. -/
def builtinTypes : List String :=
  ["slope", "segment", "slew", "shift-register", "fractal", "stochastic", "graph",
    "cv-channel-decoder", "divine-cmos", "statues", "cipher", "bools-ring", "sloth-chaos",
    "squid-axon", "genie", "lets-splosh"]

section Handlers

variable {D F M O : Type*}

/-- The loop over the entries of an extension's message. -/
def applyEntries [CFloat F] [CNarrow D F] (update : List Byte → F → M → M) (m : Entries D) (mod : M) : M :=
  m.foldl (fun mod entry =>
    match keywordName entry.1, number entry.2 with
    | some name, some x =>
        if name = "id" ∨ name = "type" then mod else update (nameBytes name) x mod
    | _, _ => mod) mod

variable (cfg : ModulatorConfig D F M O)

/-- The modulator that a message starts, if any. -/
def makeModulator [CMath F] [CNarrow D F] [CTrunc D] (typeName : String) (m : Entries D) :
    Option M :=
  if typeName ∈ builtinTypes then (buildModulator typeName m).map cfg.ofBuiltin
  else (cfg.make typeName).map (applyEntries cfg.sem.update m)

/-- `msg_modulator_start`. -/
def startMessage [CMath F] [CNarrow D F] [CTrunc D] (m : Entries D)
    (e : Engine (List Byte) M O) : Engine (List Byte) M O :=
  match Edn.findKw "id" m, Edn.findKw "type" m with
  | some idV, some typeV =>
      if modulatorId idV = [] then e
      else
        match makeModulator cfg ((keywordName typeV).getD "") m with
        | some mod => e.start (modulatorId idV) mod
        | none => e
  | _, _ => e

/-- `msg_modulator_stop`. -/
def stopMessage (m : Entries D) (e : Engine (List Byte) M O) : Engine (List Byte) M O :=
  match Edn.findKw "id" m with
  | some idV => if modulatorId idV = [] then e else e.stop (modulatorId idV)
  | none => e

/-- `msg_modulator_update`; the key is read as an id is. -/
def updateMessage [CFloat F] [CNarrow D F] (m : Entries D) (e : Engine (List Byte) M O) :
    Engine (List Byte) M O :=
  match Edn.findKw "id" m, Edn.findKw "key" m, Edn.findKw "value" m with
  | some idV, some keyV, some valueV =>
      if modulatorId idV = [] ∨ modulatorId keyV = [] then e
      else
        e.updateParam cfg.sem (modulatorId idV) (modulatorId keyV) ((number valueV).getD (lit 0))
  | _, _, _ => e

/-- `dispatch_message` on the engine; other messages do not reach it. -/
def dispatchModulator [CMath F] [CNarrow D F] [CTrunc D] (type : Byte) (payload : List Byte)
    (e : Engine (List Byte) M O) : Engine (List Byte) M O :=
  if payload = [] then e
  else
    match cfg.parse payload with
    | some (.map m) =>
        if type = msgModulatorStart then startMessage cfg m e
        else if type = msgModulatorStop then stopMessage m e
        else if type = msgModulatorUpdate then updateMessage cfg m e
        else e
    | _ => e

/-- A name that is not tested for makes none of the built-in modulators. -/
theorem mem_builtinTypes [CMath F] [CNarrow D F] [CTrunc D] {name : String} {m : Entries D}
    {mod : BuiltinModulator F} (h : buildModulator name m = some mod) : name ∈ builtinTypes := by
  unfold buildModulator at h
  split at h
  case h_17 => cases h
  all_goals simp [builtinTypes]

/-- What `modulatorStart` reads is what is started. -/
theorem startMessage_of_modulatorStart [CMath F] [CNarrow D F] [CTrunc D] {m : Entries D}
    {id : List Byte} {mod : BuiltinModulator F} (h : modulatorStart (.map m) = some (id, mod))
    (e : Engine (List Byte) M O) : startMessage cfg m e = e.start id (cfg.ofBuiltin mod) := by
  rw [modulatorStart] at h
  split at h
  · next idV typeV hid htype =>
      split at h
      · cases h
      · next hne =>
          rw [Option.map_eq_some_iff] at h
          obtain ⟨built, hbuilt, hpair⟩ := h
          cases hpair
          simp only [startMessage, hid, htype]
          rw [if_neg hne, makeModulator, if_pos (mem_builtinTypes hbuilt), hbuilt]
          rfl
  · cases h

end Handlers

/-! ## An engine left as it was -/

section Unchanged

variable {I K M O B F : Type*} [DecidableEq I]

/-- The modulator under an id. -/
def Engine.modulator (e : Engine I M O) (id : I) : Option M :=
  (e.table.mods.lookup id).bind fun ref => e.heap[ref]?

theorem Engine.start_ne_self (e : Engine I M O) (id : I) (mod : M) :
    e.start id mod ≠ e := by
  intro h
  have hlength := congrArg (fun e => e.heap.length) h
  simp [Engine.start] at hlength

theorem modify_eq_self_iff (heap : List M) (ref : Nat) (f : M → M) :
    heap.modify ref f = heap ↔ ∀ mod, heap[ref]? = some mod → f mod = mod := by
  constructor
  · intro h mod hmod
    have hget := congrArg (fun l => l[ref]?) h
    simpa [List.getElem?_modify, hmod] using hget
  · intro h
    apply List.ext_getElem?
    intro i
    rw [List.getElem?_modify]
    split_ifs with hi
    · subst hi
      cases hmod : heap[ref]? with
      | none => rfl
      | some mod => rw [Option.map_eq_map, Option.map_some, h mod hmod]
    · exact congrFun Option.map_id _

theorem updateParam_eq_self_iff (sem : ModulatorSem I K M O B F)
    (e : Engine I M O) (id : I) (key : K) (x : F) :
    e.updateParam sem id key x = e ↔
      ∀ mod, e.modulator id = some mod → sem.update key x mod = mod := by
  rw [Engine.updateParam, Engine.modulator]
  cases e.table.mods.lookup id with
  | none => simp
  | some ref =>
      show { e with heap := e.heap.modify ref (sem.update key x) } = e ↔
        ∀ mod, e.heap[ref]? = some mod → sem.update key x mod = mod
      rw [← modify_eq_self_iff]
      constructor
      · exact fun h => congrArg Engine.heap h
      · intro h
        rw [h]

end Unchanged

/-! ## What a message needs -/

section WellFormed

variable {D F M O : Type*}

/-- A keyword or a string. -/
def IsText : Edn D → Prop
  | .keyword _ => True
  | .string _ => True
  | _ => False

/-- An integer or a double. -/
def IsNumber : Edn D → Prop
  | .int _ => True
  | .double _ => True
  | _ => False

variable (cfg : ModulatorConfig D F M O)

/-- The `:type` is known, and the two types with a required field have it. -/
structure StartFields (m : Entries D) (name : String) : Prop where
  known : name ∈ builtinTypes ∨ (cfg.make name).isSome
  segments : name = "segment" →
    ∃ items, Edn.findKw "segments" m = some (.vector items) ∧ ∃ sm, .map sm ∈ items
  graph : name = "graph" → (Edn.findKw "graph" m).isSome

/-- The fields a message needs, each of a type it allows. -/
def FieldsOk (type : Byte) (m : Entries D) : Prop :=
  (∃ v, Edn.findKw "id" m = some v ∧ IsText v) ∧
  (type = msgModulatorStart →
    ∃ name, Edn.findKw "type" m = some (.keyword name) ∧ StartFields cfg m name) ∧
  (type = msgModulatorUpdate →
    (∃ v, Edn.findKw "key" m = some v ∧ IsText v) ∧
    ∃ v, Edn.findKw "value" m = some v ∧ IsNumber v)

/-- A payload that is no map with the fields the message needs. -/
def Malformed (type : Byte) (payload : List Byte) : Prop :=
  payload = [] ∨ ∀ m, cfg.parse payload = some (.map m) → ¬ FieldsOk cfg type m

/-! ## The two that get through -/

/-- An update of an active modulator with a `:value` that is no number, where zero is not what the
    modulator has already. -/
def ZeroesParameter [CFloat F] (m : Entries D) (e : Engine (List Byte) M O) : Prop :=
  ∃ idV keyV valueV, Edn.findKw "id" m = some idV ∧ Edn.findKw "key" m = some keyV ∧
    Edn.findKw "value" m = some valueV ∧ modulatorId idV ≠ [] ∧ modulatorId keyV ≠ [] ∧
    ¬ IsNumber valueV ∧ ∃ mod, e.modulator (modulatorId idV) = some mod ∧
      cfg.sem.update (modulatorId keyV) (lit 0) mod ≠ mod

/-- A start with a `:type` that is no keyword, where the registry has a factory under the empty
    name. -/
def StartsUnnamed (m : Entries D) : Prop :=
  ∃ idV typeV, Edn.findKw "id" m = some idV ∧ Edn.findKw "type" m = some typeV ∧
    modulatorId idV ≠ [] ∧ keywordName typeV = none ∧ (cfg.make "").isSome

/-- The payloads that are acted on though a field has the wrong type. -/
def GetsThrough [CFloat F] (type : Byte) (payload : List Byte) (e : Engine (List Byte) M O) :
    Prop :=
  payload ≠ [] ∧ ∃ m, cfg.parse payload = some (.map m) ∧
    (type = msgModulatorUpdate ∧ ZeroesParameter cfg m e ∨
      type = msgModulatorStart ∧ StartsUnnamed cfg m)

/-! ### Fields -/

theorem isText_of_modulatorId {v : Edn D} (h : modulatorId v ≠ []) : IsText v := by
  cases v <;> trivial

theorem number_eq_none [CFloat F] [CNarrow D F] {v : Edn D} (h : ¬ IsNumber v) : (number v : Option F) = none := by
  cases v <;> first | rfl | exact absurd trivial h

theorem keywordName_eq_some {v : Edn D} {name : String} (h : keywordName v = some name) :
    v = .keyword name := by
  cases v <;> simp_all [keywordName]

theorem filterMap_segmentDefOf_eq_nil [CMath F] [CNarrow D F] {items : List (Edn D)}
    (h : ¬ ∃ sm, .map sm ∈ items) :
    items.filterMap (segmentDefOf : Edn D → Option (SegmentDef F)) = [] := by
  rw [List.filterMap_eq_nil_iff]
  intro item hitem
  cases item with
  | map sm => exact absurd ⟨sm, hitem⟩ h
  | _ => rfl

/-- Without the fields of its type no modulator is made. -/
theorem makeModulator_eq_none [CMath F] [CNarrow D F] [CTrunc D] {m : Entries D} {name : String}
    (h : ¬ StartFields cfg m name) :
    makeModulator cfg name m = none := by
  rw [makeModulator]
  split_ifs with hbuiltin
  · rw [Option.map_eq_none_iff]
    -- of the built-in types only `segment` and `graph` need a field
    by_cases hseg : name = "segment"
    · subst hseg
      have hnone : ¬ ∃ items, Edn.findKw "segments" m = some (.vector items) ∧
          ∃ sm, .map sm ∈ items :=
        fun hsegs => h ⟨.inl hbuiltin, fun _ => hsegs, fun hg => absurd hg (by decide)⟩
      show (buildSegment m).map BuiltinModulator.segment = none
      rw [Option.map_eq_none_iff, buildSegment]
      split
      · next items hitems =>
          rw [filterMap_segmentDefOf_eq_nil fun hsm => hnone ⟨items, hitems, hsm⟩]
      · rfl
    · by_cases hgraph : name = "graph"
      · subst hgraph
        have hnone : Edn.findKw "graph" m = none := by
          rw [← Option.not_isSome_iff_eq_none]
          exact fun hg => h ⟨.inl hbuiltin, fun hs => absurd hs hseg, fun _ => hg⟩
        show (buildGraph m).map BuiltinModulator.graph = none
        rw [buildGraph, hnone]
        rfl
      · exact absurd ⟨.inl hbuiltin, fun hs => absurd hs hseg, fun hg => absurd hg hgraph⟩ h
  · rw [Option.map_eq_none_iff, ← Option.not_isSome_iff_eq_none]
    intro hmake
    refine h ⟨.inr hmake, ?_, ?_⟩
    · rintro rfl
      exact absurd (by simp [builtinTypes]) hbuiltin
    · rintro rfl
      exact absurd (by simp [builtinTypes]) hbuiltin

/-! ### Each message -/

theorem startMessage_eq_self_iff [CMath F] [CNarrow D F] [CTrunc D] {m : Entries D}
    (h : ¬ FieldsOk cfg msgModulatorStart m) (e : Engine (List Byte) M O) :
    startMessage cfg m e = e ↔ ¬ StartsUnnamed cfg m := by
  rw [startMessage]
  split
  · next idV typeV hid htype =>
      by_cases hempty : modulatorId idV = []
      · rw [if_pos hempty, eq_self_iff_true, true_iff]
        rintro ⟨idV', typeV', hid', -, hne, -⟩
        obtain rfl : idV = idV' := Option.some.inj (hid.symm.trans hid')
        exact hne hempty
      · rw [if_neg hempty]
        cases hname : keywordName typeV with
        | some name =>
            have hfields : ¬ StartFields cfg m name := by
              intro hfields
              rw [keywordName_eq_some hname] at htype
              exact h ⟨⟨idV, hid, isText_of_modulatorId hempty⟩, fun _ => ⟨name, htype, hfields⟩,
                fun hc => absurd hc (by decide)⟩
            rw [Option.getD_some, makeModulator_eq_none cfg hfields]
            simp only [true_iff]
            rintro ⟨idV', typeV', -, htype', -, hname', -⟩
            obtain rfl : typeV = typeV' := Option.some.inj (htype.symm.trans htype')
            rw [hname] at hname'
            cases hname'
        | none =>
            -- `:type` is no keyword: the name is empty, which no built-in type has
            have hbuiltin : "" ∉ builtinTypes := by decide
            rw [Option.getD_none, makeModulator, if_neg hbuiltin]
            cases hmake : cfg.make "" with
            | none =>
                simp only [Option.map_none, true_iff]
                rintro ⟨-, -, -, -, -, -, hsome⟩
                rw [hmake] at hsome
                cases hsome
            | some mod =>
                simp only [Option.map_some]
                constructor
                · exact fun hself => absurd hself (e.start_ne_self _ _)
                · intro hno
                  exact absurd ⟨idV, typeV, hid, htype, hempty, hname, by rw [hmake]; rfl⟩ hno
  · next hnone =>
      rw [eq_self_iff_true, true_iff]
      rintro ⟨idV, typeV, hid, htype, -⟩
      exact hnone idV typeV hid htype

theorem stopMessage_eq_self {m : Entries D} (h : ¬ FieldsOk cfg msgModulatorStop m)
    (e : Engine (List Byte) M O) : stopMessage m e = e := by
  rw [stopMessage]
  split
  · next idV hid =>
      by_cases hempty : modulatorId idV = []
      · rw [if_pos hempty]
      · refine absurd ⟨⟨idV, hid, isText_of_modulatorId hempty⟩, ?_, ?_⟩ h
        · exact fun hc => absurd hc (by decide)
        · exact fun hc => absurd hc (by decide)
  · rfl

theorem updateMessage_eq_self_iff [CFloat F] [CNarrow D F] {m : Entries D}
    (h : ¬ FieldsOk cfg msgModulatorUpdate m) (e : Engine (List Byte) M O) :
    updateMessage cfg m e = e ↔ ¬ ZeroesParameter cfg m e := by
  rw [updateMessage]
  split
  · next idV keyV valueV hid hkey hvalue =>
      have hfields : ∀ {P : Edn D → Edn D → Edn D → Prop},
          (∃ a b c, Edn.findKw "id" m = some a ∧ Edn.findKw "key" m = some b ∧
            Edn.findKw "value" m = some c ∧ P a b c) ↔ P idV keyV valueV := by
        intro P
        rw [hid, hkey, hvalue]
        simp
      rw [ZeroesParameter, hfields]
      by_cases hempty : modulatorId idV = [] ∨ modulatorId keyV = []
      · rw [if_pos hempty, eq_self_iff_true, true_iff]
        rintro ⟨hne, hne', -⟩
        exact hempty.elim hne hne'
      · rw [if_neg hempty]
        rw [not_or] at hempty
        -- the id and the key are text, so what is malformed is the value, which then counts as 0
        have hnumber : ¬ IsNumber valueV := by
          intro hnumber
          refine h ⟨⟨idV, hid, isText_of_modulatorId hempty.1⟩, ?_, fun _ => ?_⟩
          · exact fun hc => absurd hc (by decide)
          · exact ⟨⟨keyV, hkey, isText_of_modulatorId hempty.2⟩, valueV, hvalue, hnumber⟩
        rw [number_eq_none hnumber, Option.getD_none, updateParam_eq_self_iff]
        constructor
        · rintro hsame ⟨-, -, -, mod, hmod, hne⟩
          exact hne (hsame mod hmod)
        · intro hno mod hmod
          by_contra hne
          exact hno ⟨hempty.1, hempty.2, hnumber, mod, hmod, hne⟩
  · next hnone =>
      rw [eq_self_iff_true, true_iff]
      rintro ⟨idV, keyV, valueV, hid, hkey, hvalue, -⟩
      exact hnone idV keyV valueV hid hkey hvalue

/-- A malformed message leaves the engine as it was, unless it is one of the two that get
    through; what the engine then does in any later calls is what it would have done. -/
theorem malformed_unchanged_iff [CMath F] [CNarrow D F] [CTrunc D] (type : Byte)
    (payload : List Byte) (h : Malformed cfg type payload) (e : Engine (List Byte) M O) :
    (dispatchModulator cfg type payload e = e ↔ ¬ GetsThrough cfg type payload e) ∧
    (¬ GetsThrough cfg type payload e →
      ∀ ops, (dispatchModulator cfg type payload e).trace cfg.sem ops = e.trace cfg.sem ops) := by
  have hiff : dispatchModulator cfg type payload e = e ↔ ¬ GetsThrough cfg type payload e := by
    rw [dispatchModulator]
    by_cases hempty : payload = []
    · rw [if_pos hempty, eq_self_iff_true, true_iff]
      exact fun hthrough => hthrough.1 hempty
    · rw [if_neg hempty]
      have hfields := h.resolve_left hempty
      split
      · next m hm =>
          have hthrough : GetsThrough cfg type payload e ↔
              type = msgModulatorUpdate ∧ ZeroesParameter cfg m e ∨
                type = msgModulatorStart ∧ StartsUnnamed cfg m := by
            rw [GetsThrough, hm]
            simp [hempty]
          rw [hthrough]
          specialize hfields m hm
          -- the three messages; the last case is a type the dispatcher does not know
          split_ifs with hstart hstop hupdate
          · subst hstart
            rw [startMessage_eq_self_iff cfg hfields]
            simp [msgModulatorStart, msgModulatorUpdate]
          · subst hstop
            rw [stopMessage_eq_self cfg hfields]
            simp [msgModulatorStart, msgModulatorStop, msgModulatorUpdate]
          · subst hupdate
            rw [updateMessage_eq_self_iff cfg hfields]
            simp [msgModulatorStart, msgModulatorUpdate]
          · simp [hstart, hupdate]
      · next hnone =>
          rw [eq_self_iff_true, true_iff]
          rintro ⟨-, m, hm, -⟩
          exact hnone m hm
  exact ⟨hiff, fun hno ops => by rw [hiff.mpr hno]⟩

end WellFormed

/-! ## A level that is no number -/

section Level

/-- A byte string as text; one that is not UTF-8 names no parameter. -/
def keyText (key : List Byte) : Option String :=
  String.fromUTF8? ⟨(key.map UInt8.ofBitVec).toArray⟩

/-- The built-in modulators in an engine that goes by bytes. -/
def builtinSem {D F : Type*} [CMath F] [CNarrow D F] :
    ModulatorSem (List Byte) (List Byte) (BuiltinModulator F) (ModulatorOutput F) D F where
  tick view beat rate mod := mod.tick (fun name => view (nameBytes name)) beat rate
  update key x mod :=
    match keyText key with
    | some name => mod.update name x
    | none => mod

attribute [local instance] exactMath exactNarrow exactTrunc

/-- Starts `[:param :level]` with `:level` 1. -/
def levelStart : List Byte :=
  ascii "\x7b:id :a :type :graph :graph [:param :level] :params \x7b:level 1\x7d\x7d"

/-- Sets `:level` to a string. -/
def levelLoud : List Byte := ascii "\x7b:id :a :key \"level\" :value \"loud\"\x7d"

/-- An update without a key. -/
def levelNoKey : List Byte := ascii "\x7b:id :a :value 0\x7d"

/-- Without a registry, with the three payloads above. -/
def levelConfig : ModulatorConfig ℚ ℚ (BuiltinModulator ℚ) (ModulatorOutput ℚ) where
  sem := builtinSem
  ofBuiltin := id
  make _ := none
  parse payload :=
    if payload = levelStart then
      some (.map [(.keyword "id", .keyword "a"), (.keyword "type", .keyword "graph"),
        (.keyword "graph", .vector [.keyword "param", .keyword "level"]),
        (.keyword "params", .map [(.keyword "level", .int 1)])])
    else if payload = levelLoud then
      some (.map [(.keyword "id", .keyword "a"), (.keyword "key", .string (ascii "level")),
        (.keyword "value", .string (ascii "loud"))])
    else if payload = levelNoKey then
      some (.map [(.keyword "id", .keyword "a"), (.keyword "value", .int 0)])
    else none

/-- The engine after the first. -/
def levelEngine : Engine (List Byte) (BuiltinModulator ℚ) (ModulatorOutput ℚ) :=
  dispatchModulator levelConfig msgModulatorStart levelStart .fresh

/-- The values of `.cv` in one tick. -/
def tickCvs (e : Engine (List Byte) (BuiltinModulator ℚ) (ModulatorOutput ℚ)) : List ℚ :=
  (e.tick levelConfig.sem 0 24).1.map fun p => p.2.cv

/-- The string is taken for zero: the graph that showed 1 shows 0. -/
theorem level_zeroed :
    Malformed levelConfig msgModulatorUpdate levelLoud ∧ tickCvs levelEngine = [1] ∧
    tickCvs (dispatchModulator levelConfig msgModulatorUpdate levelLoud levelEngine) = [0] ∧
    dispatchModulator levelConfig msgModulatorUpdate levelLoud levelEngine ≠ levelEngine := by
  have hbefore : tickCvs levelEngine = [1] := by decide +kernel
  have hafter : tickCvs (dispatchModulator levelConfig msgModulatorUpdate levelLoud levelEngine) =
      [0] := by
    decide +kernel
  refine ⟨.inr ?_, hbefore, hafter, ?_⟩
  · rintro m hm ⟨-, -, hfields⟩
    cases hm
    obtain ⟨-, v, hv, hnumber⟩ := hfields rfl
    cases hv
    exact hnumber
  · intro hself
    rw [hself, hbefore] at hafter
    exact absurd hafter (by decide)

/-- Without a key nothing happens. -/
theorem level_kept :
    Malformed levelConfig msgModulatorUpdate levelNoKey ∧
    dispatchModulator levelConfig msgModulatorUpdate levelNoKey levelEngine = levelEngine := by
  have hbad : Malformed levelConfig msgModulatorUpdate levelNoKey := by
    refine .inr ?_
    rintro m hm ⟨-, -, hfields⟩
    cases hm
    obtain ⟨⟨v, hv, -⟩, -⟩ := hfields rfl
    cases hv
  have hstays : ¬ GetsThrough levelConfig msgModulatorUpdate levelNoKey levelEngine := by
    rintro ⟨-, m, hm, ⟨-, idV, keyV, valueV, -, hkey, -⟩ | ⟨hstart, -⟩⟩
    · cases hm
      cases hkey
    · exact absurd hstart (by decide)
  exact ⟨hbad, (malformed_unchanged_iff levelConfig _ _ hbad levelEngine).1.mpr hstays⟩

end Level

end NomosRt.Modulator
