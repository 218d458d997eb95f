/-
  NomosRt.Modulator.ArithFits

  When the arithmetic of one call on a built-in modulator is defined.

  A number is converted to `int` before it is clamped: `:length`, `:dac_bits`, `:n` and
  `:channels` of the message that starts a modulator, and the rounded parameters of
  `fractal`, `stochastic` and `statues`.  The segment of `segment` is converted from a phase
  that need not stay in one cycle.  All clamps are between literals in order, except the
  `:clamp` nodes of a graph, whose bounds are computed.  Nothing else can go wrong.
-/

import NomosRt.Modulator.Arith

namespace NomosRt.Modulator

open NomosRt.Lib CFloat CMath CTruncated

/-! ## Parameters -/

section Parameters

variable {F M N : Type*}

/-- The bounds of a parameter are in order. -/
def Param.Ordered : Param F M → Prop
  | .plain _ => True
  | .clamped lo hi _ => lo ≤ hi
  | .rounded lo hi _ => lo ≤ hi

/-- The value of a parameter is rounded to an `int`. -/
def Param.IsRounded : Param F M → Prop
  | .rounded _ _ _ => True
  | _ => False

/-- A parameter whose bounds are in order and whose value is rounded just if `r`. -/
def ParamOk (r : Prop) : Option (Param F M) → Prop
  | none => ¬ r
  | some p => p.Ordered ∧ (p.IsRounded ↔ r)

theorem ParamOk.map {r : Prop} {p : Option (Param F M)} (h : ParamOk r p) (f : M → N) :
    ParamOk r (p.map (·.map f)) := by
  cases p with
  | none => exact h
  | some p => cases p <;> exact h

@[simp] theorem paramOk_none {r : Prop} : ParamOk r (none : Option (Param F M)) ↔ ¬ r := Iff.rfl

@[simp] theorem paramOk_plain {r : Prop} {set : F → M} : ParamOk r (some (.plain set)) ↔ ¬ r := by
  simp [ParamOk, Param.Ordered, Param.IsRounded]

@[simp] theorem paramOk_clamped {r : Prop} {lo hi : ℚ} {set : F → M} :
    ParamOk r (some (.clamped lo hi set)) ↔ lo ≤ hi ∧ ¬ r := by
  simp [ParamOk, Param.Ordered, Param.IsRounded]

@[simp] theorem paramOk_rounded {r : Prop} {lo hi : Int} {set : Int → M} :
    ParamOk r (some (.rounded lo hi set : Param F M)) ↔ lo ≤ hi ∧ r := by
  simp [ParamOk, Param.Ordered, Param.IsRounded]

/-- The parameters that are rounded to an `int`. -/
def RoundedKey (key : String) : BuiltinModulator F → Prop
  | .fractal _ => key = "octaves" ∨ key = "shape"
  | .stochastic _ => key = "length" ∨ key = "steps"
  | .statues _ => key = "addr"
  | _ => False

variable [CMath F]

theorem paramOk_parameter (key : String) (mod : BuiltinModulator F) :
    ParamOk (RoundedKey key mod) (mod.parameter key) := by
  -- every clamp of a parameter has literal bounds in order; the rest is whether the key is rounded
  cases mod with
  | slope s =>
      apply ParamOk.map
      unfold Slope.parameter
      split <;> norm_num [RoundedKey]
  | segment s =>
      apply ParamOk.map
      unfold Segment.parameter
      split_ifs
      · norm_num [RoundedKey]
      · norm_num [RoundedKey]
      · split
        · exact id
        · split_ifs <;> norm_num [RoundedKey]
  | slew s =>
      apply ParamOk.map
      unfold Slew.parameter
      split <;> norm_num [RoundedKey]
  | shiftRegister s =>
      apply ParamOk.map
      unfold ShiftRegister.parameter
      split <;> norm_num [RoundedKey]
  | fractal s =>
      apply ParamOk.map
      unfold Fractal.parameter
      split <;> simp_all [RoundedKey, kMaxOctaves] <;> norm_num
  | stochastic s =>
      apply ParamOk.map
      unfold Stochastic.parameter
      split <;> simp_all [RoundedKey, kMaxLength]
      norm_num
  | graph s => exact (paramOk_plain.mpr id).map _
  | channelDecoder s =>
      apply ParamOk.map
      unfold ChannelDecoder.parameter
      split <;> norm_num [RoundedKey]
  | divineCmos s =>
      apply ParamOk.map
      unfold DivineCmos.parameter DivineCmos.gainParam
      split <;> norm_num [RoundedKey]
  | statues s =>
      apply ParamOk.map
      unfold Statues.parameter
      split <;> simp_all [RoundedKey]
  | cipher s =>
      apply ParamOk.map
      unfold Cipher.parameter
      split <;> norm_num [RoundedKey]
  | boolsRing s =>
      apply ParamOk.map
      unfold BoolsRing.parameter
      split <;> norm_num [RoundedKey]
  | slothChaos s =>
      apply ParamOk.map
      unfold SlothChaos.parameter
      split <;> norm_num [RoundedKey]
  | squidAxon s =>
      apply ParamOk.map
      unfold SquidAxon.parameter
      split <;> norm_num [RoundedKey]
  | genie s =>
      apply ParamOk.map
      unfold Genie.parameter
      dsimp only
      split_ifs <;> norm_num [RoundedKey]
  | letsSplosh s =>
      apply ParamOk.map
      unfold LetsSplosh.parameter
      split <;> norm_num [RoundedKey]

theorem roundedKey_update (key k : String) (x : F) (mod : BuiltinModulator F) :
    RoundedKey key (mod.update k x) ↔ RoundedKey key mod := by
  cases mod <;> exact Iff.rfl

end Parameters

/-! ## Updates -/

section Updates

variable {D F M : Type*} [CMath F] [CTruncated F] [CTruncated D]

/-- All operations are defined. -/
def AllOk (as : List (Arith D F)) : Prop := ∀ a ∈ as, a.Ok

@[simp] theorem allOk_nil : AllOk ([] : List (Arith D F)) := List.forall_mem_nil _

@[simp] theorem allOk_cons {a : Arith D F} {as : List (Arith D F)} :
    AllOk (a :: as) ↔ a.Ok ∧ AllOk as :=
  List.forall_mem_cons

@[simp] theorem allOk_append {as bs : List (Arith D F)} :
    AllOk (as ++ bs) ↔ AllOk as ∧ AllOk bs :=
  List.forall_mem_append

/-- The operations of `update`. -/
def BuiltinModulator.updateArith (key : String) (x : F) (mod : BuiltinModulator F) :
    List (Arith D F) :=
  ((mod.parameter key).map (·.arith x)).getD []

/-- The operations of some calls of `update`. -/
def updatesArith : List (String × F) → BuiltinModulator F → List (Arith D F)
  | [], _ => []
  | u :: us, mod => mod.updateArith u.1 u.2 ++ updatesArith us (mod.update u.1 u.2)

variable [LiteralExact F]

/-- A clamp between two literals. -/
theorem allOk_lits {lo hi : ℚ} (h : lo ≤ hi) : AllOk [(.clamp (lit lo) (lit hi) : Arith D F)] := by
  simp [Arith.Ok, LiteralExact.lit_le (F := F) lo hi h]

theorem Param.arith_ok_iff {p : Param F M} (hp : p.Ordered) (x : F) :
    AllOk (p.arith x : List (Arith D F)) ↔ (p.IsRounded → FitsInt (truncated (round x))) := by
  cases p with
  | plain set => simp [arith, IsRounded]
  | clamped lo hi set =>
      have hle : le (lit lo : F) (lit hi) = true := LiteralExact.lit_le lo hi hp
      simp [arith, IsRounded, Arith.Ok, hle]
  | rounded lo hi set =>
      have hle : lo ≤ hi := hp
      simp [arith, IsRounded, Arith.Ok, hle]

theorem updateArith_ok_iff (key : String) (x : F) (mod : BuiltinModulator F) :
    AllOk (mod.updateArith key x : List (Arith D F)) ↔
      (RoundedKey key mod → FitsInt (truncated (round x))) := by
  have hparam := paramOk_parameter key mod
  rw [BuiltinModulator.updateArith]
  cases hp : mod.parameter key with
  | none =>
      rw [hp] at hparam
      exact iff_of_true allOk_nil fun hkey => absurd hkey hparam
  | some p =>
      rw [hp] at hparam
      rw [Option.map_some, Option.getD_some, Param.arith_ok_iff hparam.1, hparam.2]

theorem updatesArith_ok_iff (us : List (String × F)) (mod : BuiltinModulator F) :
    AllOk (updatesArith us mod : List (Arith D F)) ↔
      ∀ u ∈ us, RoundedKey u.1 mod → FitsInt (truncated (round u.2)) := by
  induction us generalizing mod with
  | nil => simp [updatesArith]
  | cons u us ih =>
      rw [updatesArith, allOk_append, ih, updateArith_ok_iff, List.forall_mem_cons]
      simp only [roundedKey_update]

end Updates

/-! ## Messages -/

section Numbers

variable {D F : Type*} [CMath F] [CTruncated F]

/-- The number under a keyword, if there is one, is one that can be converted after `f`. -/
def NumberFits [CNarrow D F] (f : F → F) (kw : String) (m : Entries D) : Prop :=
  ∀ x : F, (Edn.findKw kw m).bind number = some x → FitsInt (truncated (f x))

/-- With a default that fits, it is the number that decides. -/
theorem fitsInt_getF_iff [CNarrow D F] {f : F → F} {dflt : ℚ}
    (hdflt : FitsInt (truncated (f (lit dflt)))) (kw : String) (m : Entries D) :
    FitsInt (truncated (f (getF kw dflt m))) ↔ NumberFits f kw m := by
  rw [getF, NumberFits]
  cases (Edn.findKw kw m).bind (number (F := F)) with
  | none => simp [hdflt]
  | some x => simp

theorem fitsInt_lit [LiteralExact F] {k : Nat} (hk : k ≤ 16) : FitsInt (truncated (lit k : F)) := by
  refine ⟨k, LiteralExact.truncated_lit k hk, ?_, ?_⟩ <;> omega

theorem fitsInt_round_lit [LiteralExact F] {k : Nat} (hk : k ≤ 16) :
    FitsInt (truncated (round (lit k : F))) := by
  rw [LiteralExact.round_lit k hk]
  exact fitsInt_lit hk

theorem channelsArith_ok_iff [CTruncated D] (m : Entries D) :
    AllOk (channelsArith m : List (Arith D F)) ↔
      ∀ x, Edn.findKw "channels" m = some (.double x) → FitsInt (truncated x) := by
  rw [channelsArith]
  split
  · next x hx => simp [hx, Arith.Ok]
  · next hnone =>
      refine iff_of_true allOk_nil fun x hx => absurd hx ?_
      intro heq
      exact hnone x heq

end Numbers

section Messages

variable {D F : Type*} [CMath F] [CNarrow D F] [CTrunc D] [CTruncated F] [CTruncated D]

/-- The operations of the message that starts a modulator, from the test on its type on. -/
def buildArith (typeName : String) (m : Entries D) : List (Arith D F) :=
  match (constructed typeName m : Option (BuiltinModulator F × List (Arith D F))) with
  | none => []
  | some (mod, as) => as ++ updatesArith (startUpdates typeName m) mod

/-- The condition on a message that starts a modulator. -/
def StartFits (F : Type*) [CMath F] [CNarrow D F] [CTruncated F] (typeName : String)
    (m : Entries D) : Prop :=
  match typeName with
  | "shift-register" => NumberFits (F := F) id "length" m ∧ NumberFits (F := F) id "dac_bits" m
  | "fractal" => NumberFits (F := F) round "octaves" m
  | "stochastic" => NumberFits (F := F) round "length" m
  | "cv-channel-decoder" => ∀ x, Edn.findKw "channels" m = some (.double x) → FitsInt (truncated x)
  | "genie" => NumberFits (F := F) id "n" m
  | _ => True

variable [LiteralExact F]

theorem clampInt_mem (v : Int) {lo hi : Int} (h : lo ≤ hi) :
    lo ≤ clampInt v lo hi ∧ clampInt v lo hi ≤ hi := by
  unfold clampInt
  split_ifs <;> constructor <;> omega

/-- The types that convert a number of the message. -/
def convertingTypes : List String :=
  ["shift-register", "fractal", "stochastic", "cv-channel-decoder", "genie"]

omit [LiteralExact F] in
/-- The other types convert nothing. -/
theorem constructed_plain {typeName : String} (hplain : typeName ∉ convertingTypes)
    {m : Entries D} {mod : BuiltinModulator F} {as : List (Arith D F)}
    (h : constructed typeName m = some (mod, as)) :
    AllOk as ∧ ∀ u ∈ (startUpdates typeName m : List (String × F)), ¬ RoundedKey u.1 mod := by
  unfold constructed at h
  split at h
  case h_2 | h_7 =>
    obtain ⟨s, -, hs⟩ := Option.map_eq_some_iff.mp h
    cases hs
    simp [Arith.Ok, RoundedKey, kMaxSegments]
  case h_4 | h_5 | h_6 | h_8 | h_15 => simp [convertingTypes] at hplain
  case h_10 =>
    -- the address of `statues` is rounded, but not set by the message
    cases h
    exact ⟨allOk_nil, List.forall_mem_nil _⟩
  case h_17 => cases h
  all_goals
    cases h
    exact ⟨allOk_nil, fun u _ => id⟩

/-- The operations of a message are defined just if its numbers fit. -/
theorem buildArith_ok_iff (typeName : String) (m : Entries D) :
    AllOk (buildArith typeName m : List (Arith D F)) ↔ StartFits F typeName m := by
  unfold StartFits
  split
  case h_1 =>
    -- the second clamp is in order because the clamped length is at least 2
    have hmin : 1 ≤ Min.min (clampInt (toInt (getF "length" 16 m : F)) 2 32) 8 := by
      have hlen := (clampInt_mem (toInt (getF "length" 16 m : F)) (by omega : (2 : Int) ≤ 32)).1
      omega
    rw [← fitsInt_getF_iff (f := id) (fitsInt_lit (F := F) (k := 16) (by omega)),
      ← fitsInt_getF_iff (f := id) (fitsInt_lit (F := F) (k := 3) (by omega))]
    show AllOk ([.convert (getF "length" 16 m), .convert (getF "dac_bits" 3 m), .clampInt 2 32,
      .clampInt 1 _] ++ updatesArith (startUpdates "shift-register" m) _) ↔ _
    rw [allOk_append, updatesArith_ok_iff]
    simp [Arith.Ok, RoundedKey, hmin]
  case h_2 =>
    rw [← fitsInt_getF_iff (fitsInt_round_lit (F := F) (k := 4) (by omega))]
    show AllOk ([] ++ updatesArith (startUpdates "fractal" m) (.fractal Fractal.make)) ↔ _
    rw [allOk_append, updatesArith_ok_iff]
    simp [startUpdates, getUpdates, RoundedKey]
  case h_3 =>
    rw [← fitsInt_getF_iff (fitsInt_round_lit (F := F) (k := 8) (by omega))]
    show AllOk ([] ++ updatesArith (startUpdates "stochastic" m) (.stochastic Stochastic.make)) ↔ _
    rw [allOk_append, updatesArith_ok_iff]
    simp [startUpdates, getUpdates, RoundedKey]
  case h_4 =>
    rw [← channelsArith_ok_iff (F := F)]
    show AllOk (channelsArith m ++ [.clampInt 1 kMaxChannels] ++
      updatesArith (startUpdates "cv-channel-decoder" m) _) ↔ _
    rw [allOk_append, updatesArith_ok_iff]
    simp [Arith.Ok, RoundedKey, kMaxChannels]
  case h_5 =>
    rw [← fitsInt_getF_iff (f := id) (fitsInt_lit (F := F) (k := 3) (by omega))]
    show AllOk ([.convert (getF "n" 3 m), .clampInt 2 kMaxN] ++
      updatesArith (startUpdates "genie" m) _) ↔ _
    rw [allOk_append, updatesArith_ok_iff]
    simp [Arith.Ok, RoundedKey, kMaxN]
  case h_6 h1 h2 h3 h4 h5 =>
    -- no other type converts: all their updates are of keys that are not rounded
    have hplain : typeName ∉ convertingTypes := by simp [convertingTypes]; exact ⟨h1, h2, h3, h4, h5⟩
    rw [iff_true, buildArith]
    split
    · exact allOk_nil
    · next mod as hmod =>
        obtain ⟨has, hkeys⟩ := constructed_plain hplain hmod
        rw [allOk_append, updatesArith_ok_iff]
        exact ⟨has, fun u hu hkey => absurd hkey (hkeys u hu)⟩

end Messages

/-! ## Ticks -/

section Ticks

variable {D F : Type*} [CMath F] [CNarrow D F]

/-- What holds of the graphs that messages start: nodes refer backwards, and a `:mod-out` has one
    of the four fields it can name. -/
def GraphOk : BuiltinModulator F → Prop
  | .graph s => Linked 0 s.graph.nodes ∧
      ∀ n ∈ s.graph.nodes, n.type = .modRef → ∃ k : Nat, k ≤ 3 ∧ n.arg = lit k
  | _ => True

/-- The condition on a tick: a segment that can be converted, and the bounds of every `:clamp` node
    in order. -/
def TickFits [CTruncated F] (view : OutputView F) (beat : D) (rate : F) :
    BuiltinModulator F → Prop
  | .segment s => le rate (lit 0) = false → FitsInt (truncated (s.segPhase rate))
  | .graph s => ∀ (i : Nat) (n : CgNode F), s.graph.nodes[i]? = some n → n.type = .clamp →
      le (inputAt (s.env view beat rate) s.graph.nodes i n 1)
        (inputAt (s.env view beat rate) s.graph.nodes i n 2) = true
  | _ => True

theorem graphOk_update (key : String) (x : F) {mod : BuiltinModulator F} (h : GraphOk mod) :
    GraphOk (mod.update key x) := by
  cases mod <;> exact h

theorem graphOk_tick (view : OutputView F) (beat : D) (rate : F) {mod : BuiltinModulator F}
    (h : GraphOk mod) : GraphOk (mod.tick view beat rate).2 := by
  cases mod with
  | graph s =>
      refine ⟨h.1.tick view beat rate, fun n' hn' => ?_⟩
      obtain ⟨i, hi⟩ := List.mem_iff_getElem?.mp hn'
      obtain ⟨n, hn, rfl⟩ := of_tick_getElem? h.1 view beat rate hi
      exact h.2 n (List.mem_of_getElem? hn)
  | _ => trivial

theorem opShape_modRef {op : String} {items : List (Edn D)} {sh : OpShape F}
    (h : opShape op items = some sh) (htype : sh.type = .modRef) :
    ∃ k : Nat, k ≤ 3 ∧ sh.arg = lit k := by
  unfold opShape at h
  split at h
  case h_3 =>
    cases h
    exact ⟨fieldArg items, by have := fieldArg_lt items; omega, rfl⟩
  case h_23 => cases h
  all_goals
    cases h
    cases htype

theorem graphOk_parsed (v : Edn D) (params : String → Option F) :
    GraphOk (.graph (GraphModulator.make (parseControlGraph v params))) := by
  have hnew : NewNode D fun n : CgNode F =>
      n.type = .modRef → ∃ k : Nat, k ≤ 3 ∧ n.arg = lit k := by
    refine ⟨fun x htype => ?_, fun op items sh inputs hsh htype => ?_⟩
    · cases htype
    · exact opShape_modRef hsh htype
  exact ⟨parsed_linked v params, hnew.parsed v params⟩

theorem graphOk_build [CTrunc D] {typeName : String} {m : Entries D} {mod : BuiltinModulator F}
    (h : buildModulator typeName m = some mod) : GraphOk mod := by
  unfold buildModulator at h
  split at h
  case h_2 =>
    obtain ⟨s, -, rfl⟩ := Option.map_eq_some_iff.mp h
    trivial
  case h_7 =>
    obtain ⟨s, hs, rfl⟩ := Option.map_eq_some_iff.mp h
    obtain ⟨v, -, rfl⟩ := Option.map_eq_some_iff.mp hs
    exact graphOk_parsed v _
  case h_17 => cases h
  all_goals
    cases h
    trivial

variable [CTruncated F] [CTruncated D] [LiteralExact F]

omit [CNarrow D F] in
theorem nodeArith_ok_iff (env : TickEnv D F) {n : CgNode F} (inp : Nat → F)
    (hn : n.type = .modRef → ∃ k : Nat, k ≤ 3 ∧ n.arg = lit k) :
    AllOk (nodeArith env n inp) ↔ (n.type = .clamp → le (inp 1) (inp 2) = true) := by
  unfold nodeArith
  split
  · next htype =>
      obtain ⟨k, hk, harg⟩ := hn htype
      have hfits : FitsInt (truncated (lit k : F)) := fitsInt_lit (by omega)
      simp only [htype, harg]
      split_ifs <;> simp [Arith.Ok, hfits]
  · next htype => simp [htype, Arith.Ok]
  · next htype =>
      have hle : le (lit 0 : F) (lit 1) = true := LiteralExact.lit_le 0 1 (by norm_num)
      simp [htype, Arith.Ok, hle]
  · next hclamp _ => exact iff_of_true allOk_nil fun htype => absurd htype hclamp

theorem tickArith_ok_iff (view : OutputView F) (beat : D) (rate : F) {mod : BuiltinModulator F}
    (h : GraphOk mod) :
    AllOk (mod.tickArith view beat rate) ↔ TickFits view beat rate mod := by
  cases mod with
  | segment s =>
      have hle : le (lit 0 : F) (lit 1) = true := LiteralExact.lit_le 0 1 (by norm_num)
      simp only [BuiltinModulator.tickArith, TickFits]
      split_ifs with hrate
      · simp [hrate]
      · simp [hrate, Arith.Ok, hle]
  | graph s =>
      simp only [BuiltinModulator.tickArith, TickFits]
      -- what a graph's tick does is what its nodes do, so the two sides are compared node by node
      constructor
      · intro hall i n hn
        rw [← nodeArith_ok_iff (s.env view beat rate) _ (h.2 n (List.mem_of_getElem? hn))]
        exact fun a ha => hall a ((GraphModulator.mem_tickArith h.1).mpr ⟨i, n, hn, ha⟩)
      · intro hfits a ha
        obtain ⟨i, n, hn, ha⟩ := (GraphModulator.mem_tickArith h.1).mp ha
        exact (nodeArith_ok_iff _ _ (h.2 n (List.mem_of_getElem? hn))).mpr (hfits i n hn) a ha
  | slope s => exact iff_of_true (allOk_lits (by norm_num)) trivial
  | fractal s => exact iff_of_true (allOk_lits (by norm_num)) trivial
  | stochastic s => exact iff_of_true (allOk_lits (by norm_num)) trivial
  | slothChaos s => exact iff_of_true (allOk_lits (by norm_num)) trivial
  | squidAxon s => exact iff_of_true (allOk_lits (by norm_num)) trivial
  | statues s => exact iff_of_true (by simp [BuiltinModulator.tickArith, Arith.Ok]) trivial
  | genie s =>
      have hten : AllOk [(.clamp (lit 0) (lit 10) : Arith D F)] := allOk_lits (by norm_num)
      have hone : AllOk [(.clamp (lit 0) (lit 1) : Arith D F)] := allOk_lits (by norm_num)
      exact iff_of_true (allOk_append.mpr ⟨hten, hone⟩) trivial
  | _ => exact iff_of_true allOk_nil trivial

end Ticks

end NomosRt.Modulator
