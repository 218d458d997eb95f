/-
  NomosRt.Modulator.Literals

  Integer and floating literals in `msg_modulator_start`.

  `Widens n path v v'` replaces the integer literal n at one place of a value by n.0.
  Every decoder of the handler is shown not to see the difference, with two exceptions:
  the argument of a `:const` that `parse_node` reaches, which is 0 unless it is a
  double, and the per-neuron vectors of `genie`, whose integers are skipped.
-/

import NomosRt.Modulator.Start
import NomosRt.Modulator.GraphErrors

namespace NomosRt.Modulator

open NomosRt.Lib CFloat CMath

/-! ## One literal replaced -/

/-- A step into a value. -/
inductive EdnStep where
  | vectorItem (i : Nat)
  | listItem (i : Nat)
  | setItem (i : Nat)
  | key (i : Nat)
  | val (i : Nat)
  | tagged
  deriving DecidableEq, Repr

section Widening

variable {D : Type*}

/-- `v'` is `v` with the integer literal `n` at `path` replaced by the double `n.0`. -/
inductive Widens [CDouble D] (n : Int) : List EdnStep → Edn D → Edn D → Prop where
  | here : Widens n [] (.int n) (.double (CDouble.ofInt n))
  | vector {path : List EdnStep} {items : List (Edn D)} {i : Nat} {v v' : Edn D} :
      items[i]? = some v → Widens n path v v' →
      Widens n (.vectorItem i :: path) (.vector items) (.vector (items.set i v'))
  | list {path : List EdnStep} {items : List (Edn D)} {i : Nat} {v v' : Edn D} :
      items[i]? = some v → Widens n path v v' →
      Widens n (.listItem i :: path) (.list items) (.list (items.set i v'))
  | set {path : List EdnStep} {items : List (Edn D)} {i : Nat} {v v' : Edn D} :
      items[i]? = some v → Widens n path v v' →
      Widens n (.setItem i :: path) (.set items) (.set (items.set i v'))
  | key {path : List EdnStep} {m : Entries D} {i : Nat} {k k' v : Edn D} :
      m[i]? = some (k, v) → Widens n path k k' →
      Widens n (.key i :: path) (.map m) (.map (m.set i (k', v)))
  | val {path : List EdnStep} {m : Entries D} {i : Nat} {k v v' : Edn D} :
      m[i]? = some (k, v) → Widens n path v v' →
      Widens n (.val i :: path) (.map m) (.map (m.set i (k, v')))
  | tagged {path : List EdnStep} {tag : String} {v v' : Edn D} :
      Widens n path v v' → Widens n (.tagged :: path) (.tagged tag v) (.tagged tag v')

/-- The entry that `find_kw` finds. -/
def kwIndex (name : String) (m : Entries D) : Option Nat :=
  m.findIdx? fun e => keywordName e.1 = some name

/-- The rest of a path that leads through the value under a keyword. -/
def underKw (name : String) (m : Entries D) : List EdnStep → Option (List EdnStep)
  | .val i :: path => if kwIndex name m = some i then some path else none
  | _ => none

end Widening

/-! ## What is misread -/

section Misread

variable {D : Type*} (F : Type*) [CMath F] [CNarrow D F]

/-- The path leads to the argument of a `:const`, through operands that their operators
    parse. -/
inductive ConstArgAt : List EdnStep → Edn D → Prop where
  | arg {items : List (Edn D)} :
      ConstArgAt [.vectorItem 1] (.vector (.keyword "const" :: items))
  | operand {op : String} {items : List (Edn D)} {sh : OpShape F} {i : Nat} {w : Edn D}
      {path : List EdnStep} :
      opShape op (.keyword op :: items) = some sh → i < sh.operands.length →
      items[i]? = some w → ConstArgAt path w →
      ConstArgAt (.vectorItem (i + 1) :: path) (.vector (.keyword op :: items))

/-- Only a `:const` has its argument as first item. -/
theorem ConstArgAt.eq_const {F : Type*} [CMath F] [CNarrow D F] {op : String}
    {items : List (Edn D)} (h : ConstArgAt F [.vectorItem 1] (.vector (.keyword op :: items))) :
    op = "const" := by
  cases h with
  | arg => rfl
  | operand _ _ _ hnil => cases hnil

/-- The same in a graph value, which may be a map of outputs. -/
def GraphConstAt (path : List EdnStep) : Edn D → Prop
  | .map g => ∃ kw ∈ ["cv", "aux", "gate", "gate2"], ∃ p w,
      underKw kw g path = some p ∧ Edn.findKw kw g = some w ∧ ConstArgAt F p w
  | v => ConstArgAt F path v

/-- A payload map with a non-empty id and a type. -/
def HasType (typeName : String) (m : Entries D) : Prop :=
  (∃ v, Edn.findKw "id" m = some v ∧ modulatorId v ≠ []) ∧
    (Edn.findKw "type" m).bind keywordName = some typeName

/-- The handler misreads an integer `n` at `path`: it is not 0 and the argument of a
    `:const` in the graph of a `graph`, or one of the first eight items of `:gains`,
    `:sense` or `:response` of a `genie`. -/
def Misread (n : Int) (path : List EdnStep) : Edn D → Prop
  | .map m =>
      (HasType "graph" m ∧ n ≠ 0 ∧ ∃ p v, underKw "graph" m path = some p ∧
        Edn.findKw "graph" m = some v ∧ GraphConstAt F p v) ∨
      (HasType "genie" m ∧ ∃ kw ∈ ["gains", "sense", "response"], ∃ i < kMaxN,
        underKw kw m path = some [.vectorItem i])
  | _ => False

end Misread

/-! ## Lookup -/

section Lookup

variable {D : Type*} {m : Entries D} {name : String}

theorem findKw_cons (k v : Edn D) (m : Entries D) :
    Edn.findKw name ((k, v) :: m) =
      if keywordName k = some name then some v else Edn.findKw name m := by
  cases k with
  | keyword s => simp only [Edn.findKw, keywordName, Option.some.injEq]
  | _ => simp [Edn.findKw, keywordName]

theorem kwIndex_cons (e : Edn D × Edn D) (m : Entries D) :
    kwIndex name (e :: m) =
      if keywordName e.1 = some name then some 0 else (kwIndex name m).map (· + 1) := by
  rw [kwIndex, List.findIdx?_cons]
  by_cases h : keywordName e.1 = some name
  · simp [h]
  · simp [h, kwIndex]

/-- An entry replaced by one with the same keyword, or none, is found or it makes no
    difference. -/
theorem findKw_set (name : String) {i : Nat} {k k' v : Edn D} (v' : Edn D)
    (hi : m[i]? = some (k, v)) (hk : keywordName k' = keywordName k) :
    Edn.findKw name (m.set i (k', v')) = Edn.findKw name m ∨
      (kwIndex name m = some i ∧ keywordName k = some name ∧ Edn.findKw name m = some v ∧
        Edn.findKw name (m.set i (k', v')) = some v') := by
  induction m generalizing i with
  | nil => cases hi
  | cons e m ih =>
      obtain ⟨k₀, v₀⟩ := e
      cases i with
      | zero =>
          obtain ⟨rfl, rfl⟩ : k₀ = k ∧ v₀ = v := by simpa using hi
          -- the entry is the first: it is found, or both searches go on behind it
          rw [List.set_cons_zero, findKw_cons, findKw_cons, kwIndex_cons, hk]
          by_cases h : keywordName k₀ = some name
          · exact .inr ⟨if_pos h, h, if_pos h, if_pos h⟩
          · left
            rw [if_neg h, if_neg h]
      | succ i =>
          rw [List.set_cons_succ, findKw_cons, findKw_cons, kwIndex_cons]
          by_cases h : keywordName k₀ = some name
          · left
            rw [if_pos h, if_pos h]
          · rw [if_neg h, if_neg h, if_neg h]
            rcases ih hi with heq | ⟨hidx, hrest⟩
            · exact .inl heq
            · exact .inr ⟨by rw [hidx]; rfl, hrest⟩

end Lookup

/-! ## Values -/

section Values

variable {D F : Type*} [CDouble D] {n : Int} {path : List EdnStep} {v v' : Edn D}

theorem Widens.keywordName_eq (h : Widens n path v v') : keywordName v' = keywordName v := by
  cases h <;> rfl

theorem Widens.keywordName_none (h : Widens n path v v') : keywordName v = none := by
  cases h <;> rfl

theorem Widens.isTruthy_eq (h : Widens n path v v') : isTruthy v' = isTruthy v := by
  cases h <;> rfl

theorem Widens.modulatorId_eq (h : Widens n path v v') : modulatorId v' = modulatorId v := by
  cases h <;> rfl

/-- A replaced item that a function does not see. -/
theorem map_set_eq {α β : Type*} {l : List α} {i : Nat} {a b : α} {f : α → β}
    (hi : l[i]? = some a) (hf : f b = f a) : (l.set i b).map f = l.map f := by
  obtain ⟨hlt, rfl⟩ := List.getElem?_eq_some_iff.mp hi
  rw [List.map_set, hf]
  have hlt' : i < (l.map f).length := by
    rw [List.length_map]
    exact hlt
  have hself := List.set_getElem_self hlt'
  rwa [List.getElem_map] at hself

theorem Widens.vectorKeywords_eq (h : Widens n path v v') :
    vectorKeywords v' = vectorKeywords v := by
  cases h with
  | vector hi hv => exact map_set_eq hi hv.keywordName_eq
  | _ => rfl

variable [CNarrow D F]

/-- A number is read the same in both spellings. -/
theorem Widens.number_eq [CFloat F] [CTrunc D] [SmallIntExact D F] (h : Widens n path v v')
    (hn : |n| ≤ 2 ^ 24) : (number v' : Option F) = number v := by
  cases h with
  | here => exact congrArg some (SmallIntExact.narrow_ofInt n hn)
  | _ => rfl

theorem Widens.channelsOf_eq (F : Type*) [CFloat F] [CNarrow D F] [CTrunc D] [SmallIntExact D F]
    (h : Widens n path v v') (hn : |n| ≤ 2 ^ 24) : channelsOf (some v') = channelsOf (some v) := by
  cases h with
  | here =>
      obtain ⟨hlo, hhi⟩ := abs_le.mp hn
      show CTrunc.trunc (CDouble.ofInt n : D) = Int.bmod n (2 ^ 32)
      rw [SmallIntExact.trunc_ofInt (F := F) n hn, Int.bmod_eq_of_le (by omega) (by omega)]
  | _ => rfl

/-- A double is only made where the literal itself stands. -/
theorem Widens.doubleOnly_eq (h : Widens n path v v') (hpath : path ≠ []) :
    (doubleOnly v' : Option F) = doubleOnly v := by
  cases h with
  | here => exact absurd rfl hpath
  | _ => rfl

end Values

/-! ## Fields of a map -/

section Fields

variable {D : Type*} [CDouble D] {n : Int} {path : List EdnStep} {m m' : Entries D}

/-- A widened map is a map. -/
theorem Widens.map {w : Edn D} (h : Widens n path (.map m) w) : ∃ m', w = .map m' := by
  cases h with
  | key => exact ⟨_, rfl⟩
  | val => exact ⟨_, rfl⟩

/-- The literal is below a field, or the field is what it was. -/
theorem Widens.findKw (h : Widens n path (.map m) (.map m')) (name : String) :
    Edn.findKw name m' = Edn.findKw name m ∨
      ∃ p v v', underKw name m path = some p ∧ Edn.findKw name m = some v ∧
        Edn.findKw name m' = some v' ∧ Widens n p v v' := by
  cases h with
  | key hi hk =>
      -- a widened key is no keyword
      left
      rcases findKw_set name _ hi hk.keywordName_eq with heq | ⟨-, -, hv, hv'⟩
      · exact heq
      · rw [hv', hv]
  | @val p m i k v v' hi hv =>
      rcases findKw_set name v' hi (rfl : keywordName k = keywordName k)
        with heq | ⟨hidx, -, hfind, hfind'⟩
      · exact .inl heq
      · exact .inr ⟨p, v, v', by rw [underKw, if_pos hidx], hfind, hfind', hv⟩

/-- A field read by a function that does not see the difference. -/
theorem Widens.bind_findKw {α : Type*} (h : Widens n path (.map m) (.map m')) (name : String)
    {f : Edn D → Option α} (hf : ∀ p v v', Widens n p v v' → f v' = f v) :
    (Edn.findKw name m').bind f = (Edn.findKw name m).bind f := by
  rcases h.findKw name with heq | ⟨p, v, v', -, hv, hv', hw⟩
  · rw [heq]
  · rw [hv, hv', Option.bind_some, Option.bind_some, hf p v v' hw]

theorem Widens.keywordIn_eq {α : Type*} (h : Widens n path (.map m) (.map m'))
    (table : List (String × α)) (dflt : α) (name : String) :
    keywordIn table dflt (Edn.findKw name m') = keywordIn table dflt (Edn.findKw name m) := by
  rw [keywordIn, keywordIn, h.bind_findKw name fun _ _ _ hw => hw.keywordName_eq]

theorem Widens.nameAt_eq (h : Widens n path (.map m) (.map m')) (name : String) (i : Nat) :
    nameAt (Edn.findKw name m') i = nameAt (Edn.findKw name m) i := by
  rw [nameAt, nameAt, h.bind_findKw name fun _ _ _ hw => by rw [hw.vectorKeywords_eq]]

theorem Widens.getSrc_eq (h : Widens n path (.map m) (.map m')) (kw : String) :
    getSrc kw m' = getSrc kw m := by
  rw [getSrc, getSrc, h.nameAt_eq]

theorem Widens.getInsSrc_eq (h : Widens n path (.map m) (.map m')) (kw : String) :
    getInsSrc kw m' = getInsSrc kw m := by
  unfold getInsSrc
  rcases h.findKw "ins" with heq | ⟨p, v, v', -, hv, hv', hw⟩
  · rw [heq]
  · rw [hv, hv']
    cases hw with
    | key hi hk => exact (Widens.key hi hk).getSrc_eq kw
    | val hi hk => exact (Widens.val hi hk).getSrc_eq kw
    | _ => rfl

variable {F : Type*} [CFloat F] [CNarrow D F] [CTrunc D] [SmallIntExact D F]

theorem Widens.getF_eq (h : Widens n path (.map m) (.map m')) (hn : |n| ≤ 2 ^ 24) (kw : String)
    (dflt : ℚ) : (getF kw dflt m' : F) = getF kw dflt m := by
  rw [getF, getF, h.bind_findKw kw fun _ _ _ hw => hw.number_eq hn]

theorem Widens.applied_eq {M : Type*} (h : Widens n path (.map m) (.map m')) (hn : |n| ≤ 2 ^ 24)
    (update : String → F → M → M) (params : List (String × String × ℚ)) (mod : M) :
    applied update params m' mod = applied update params m mod := by
  simp only [applied, h.getF_eq hn]

end Fields

/-! ## The modulators -/

section Builds

variable {D : Type*} [CDouble D] {n : Int} {path : List EdnStep} {m m' : Entries D}
variable {F : Type*} [CMath F] [CNarrow D F] [CTrunc D] [SmallIntExact D F]

/-- A replaced item that a fold does not see. -/
theorem foldl_set_eq {α β : Type*} {l : List α} {i : Nat} {a b : α} {f : β → α → β}
    (hi : l[i]? = some a) (hf : ∀ s, f s b = f s a) (s : β) :
    (l.set i b).foldl f s = l.foldl f s := by
  induction l generalizing i s with
  | nil => cases hi
  | cons x l ih =>
      cases i with
      | zero =>
          obtain rfl : x = a := by simpa using hi
          rw [List.set_cons_zero, List.foldl_cons, List.foldl_cons, hf]
      | succ i =>
          rw [List.set_cons_succ, List.foldl_cons, List.foldl_cons]
          exact ih hi _

theorem Widens.buildSlope_eq (h : Widens n path (.map m) (.map m')) (hn : |n| ≤ 2 ^ 24) :
    (buildSlope m' : Slope F) = buildSlope m :=
  h.applied_eq hn _ _ _

theorem Widens.segmentDefOf_map (h : Widens n path (.map m) (.map m')) (hn : |n| ≤ 2 ^ 24) :
    (segmentDefOf (.map m') : Option (SegmentDef F)) = segmentDefOf (.map m) := by
  have hloop : (Edn.findKw "loop" m').map isTruthy = (Edn.findKw "loop" m).map isTruthy := by
    rcases h.findKw "loop" with heq | ⟨p, v, v', -, hv, hv', hw⟩
    · rw [heq]
    · rw [hv, hv', Option.map_some, Option.map_some, hw.isTruthy_eq]
  rw [segmentDefOf, segmentDefOf, h.keywordIn_eq, h.getF_eq hn, h.getF_eq hn, hloop]

theorem Widens.segmentDefOf_eq {v v' : Edn D} (h : Widens n path v v') (hn : |n| ≤ 2 ^ 24) :
    (segmentDefOf v' : Option (SegmentDef F)) = segmentDefOf v := by
  cases h with
  | key hi hk => exact (Widens.key hi hk).segmentDefOf_map hn
  | val hi hv => exact (Widens.val hi hv).segmentDefOf_map hn
  | _ => rfl

theorem Widens.buildSegment_eq (h : Widens n path (.map m) (.map m')) (hn : |n| ≤ 2 ^ 24) :
    (buildSegment m' : Option (Segment F)) = buildSegment m := by
  unfold buildSegment
  rcases h.findKw "segments" with heq | ⟨p, v, v', -, hv, hv', hw⟩
  · rw [heq]
  · rw [hv, hv']
    cases hw with
    | @vector _ items i w w' hi hw =>
        have hdefs : (items.set i w').filterMap segmentDefOf =
            items.filterMap (segmentDefOf (F := F)) := by
          have hmap := map_set_eq hi (hw.segmentDefOf_eq (F := F) hn)
          have hfm := congrArg (List.filterMap id) hmap
          rwa [List.filterMap_map, List.filterMap_map] at hfm
        simp only [hdefs]
    | _ => rfl

theorem Widens.buildSlew_eq (h : Widens n path (.map m) (.map m')) (hn : |n| ≤ 2 ^ 24) :
    (buildSlew m' : Slew F) = buildSlew m :=
  h.applied_eq hn _ _ _

theorem Widens.buildShiftRegister_eq (h : Widens n path (.map m) (.map m')) (hn : |n| ≤ 2 ^ 24) :
    (buildShiftRegister m' : ShiftRegister F) = buildShiftRegister m := by
  rw [buildShiftRegister, buildShiftRegister, h.applied_eq hn, h.keywordIn_eq, h.getF_eq hn,
    h.getF_eq hn]

theorem Widens.buildFractal_eq (h : Widens n path (.map m) (.map m')) (hn : |n| ≤ 2 ^ 24) :
    (buildFractal m' : Fractal F) = buildFractal m :=
  h.applied_eq hn _ _ _

theorem Widens.buildStochastic_eq (h : Widens n path (.map m) (.map m')) (hn : |n| ≤ 2 ^ 24) :
    (buildStochastic m' : Stochastic F) = buildStochastic m :=
  h.applied_eq hn _ _ _

theorem Widens.buildChannelDecoder_eq (h : Widens n path (.map m) (.map m'))
    (hn : |n| ≤ 2 ^ 24) : (buildChannelDecoder m' : ChannelDecoder F) = buildChannelDecoder m := by
  have hchannels : channelsOf (Edn.findKw "channels" m') =
      channelsOf (Edn.findKw "channels" m) := by
    rcases h.findKw "channels" with heq | ⟨p, v, v', -, hv, hv', hw⟩
    · rw [heq]
    · rw [hv, hv', hw.channelsOf_eq F hn]
  -- a static span, if the value is no vector
  have hspan : (Edn.findKw "span" m').bind (number (F := F)) =
      (Edn.findKw "span" m).bind number :=
    h.bind_findKw "span" fun _ _ _ hw => hw.number_eq hn
  simp only [buildChannelDecoder, h.applied_eq hn, hchannels, spanField, h.nameAt_eq, hspan]

theorem Widens.buildDivineCmos_eq (h : Widens n path (.map m) (.map m')) (hn : |n| ≤ 2 ^ 24) :
    (buildDivineCmos m' : DivineCmos F) = buildDivineCmos m := by
  simp only [buildDivineCmos, h.applied_eq hn, h.getSrc_eq]
  rcases h.findKw "gains" with heq | ⟨p, v, v', -, hv, hv', hw⟩
  · rw [heq]
  · rw [hv, hv']
    cases hw with
    | vector hi hw =>
        have hgain := congrArg (fun x : Option F => x.getD (lit 1)) (hw.number_eq hn)
        have hgains := map_set_eq (f := fun v => (number v : Option F).getD (lit 1)) hi hgain
        simp only [List.map_take, hgains]
    | _ => rfl

theorem Widens.buildBoolsRing_eq (h : Widens n path (.map m) (.map m')) (hn : |n| ≤ 2 ^ 24) :
    (buildBoolsRing m' : BoolsRing F) = buildBoolsRing m := by
  simp only [buildBoolsRing, h.applied_eq hn, h.keywordIn_eq, h.getInsSrc_eq]

theorem Widens.buildSlothChaos_eq (h : Widens n path (.map m) (.map m')) (hn : |n| ≤ 2 ^ 24) :
    (buildSlothChaos m' : SlothChaos F) = buildSlothChaos m := by
  simp only [buildSlothChaos, h.applied_eq hn, h.keywordIn_eq, h.getSrc_eq]

theorem Widens.buildSquidAxon_eq (h : Widens n path (.map m) (.map m')) (hn : |n| ≤ 2 ^ 24) :
    (buildSquidAxon m' : SquidAxon F) = buildSquidAxon m := by
  have hin3 : (Edn.findKw "in3" m').isSome = (Edn.findKw "in3" m).isSome := by
    rcases h.findKw "in3" with heq | ⟨p, v, v', -, hv, hv', -⟩
    · rw [heq]
    · rw [hv, hv']
      rfl
  simp only [buildSquidAxon, h.applied_eq hn, h.getSrc_eq, hin3]

omit [CTrunc D] [SmallIntExact D F] in
/-- The vectors of `genie` outside the first eight items. -/
theorem Widens.applyVecParam_eq (h : Widens n path (.map m) (.map m')) {kw : String}
    (hkw : ∀ i < kMaxN, underKw kw m path ≠ some [.vectorItem i]) (stem : String)
    (mod : Genie F) : applyVecParam kw stem m' mod = applyVecParam kw stem m mod := by
  unfold applyVecParam
  rcases h.findKw kw with heq | ⟨p, v, v', hp, hv, hv', hw⟩
  · rw [heq]
  · rw [hv, hv']
    cases hw with
    | @vector q items i w w' hi hw =>
        by_cases hq : q = []
        · -- the literal is an item: it is behind the eighth
          have hge : kMaxN ≤ i := by
            by_contra hlt
            exact hkw i (by omega) (by rw [hp, hq])
          simp only [List.take_set_of_le hge]
        · simp only [List.map_take, map_set_eq hi (hw.doubleOnly_eq (F := F) hq)]
    | _ => rfl

theorem Widens.buildGenie_eq (h : Widens n path (.map m) (.map m')) (hn : |n| ≤ 2 ^ 24)
    (hkws : ∀ kw ∈ ["gains", "sense", "response"], ∀ i < kMaxN,
      underKw kw m path ≠ some [.vectorItem i]) :
    (buildGenie m' : Genie F) = buildGenie m := by
  simp only [buildGenie, h.getF_eq hn, h.applyVecParam_eq (hkws "gains" (by simp)),
    h.applyVecParam_eq (hkws "sense" (by simp)), h.applyVecParam_eq (hkws "response" (by simp))]

end Builds

/-! ## Graphs -/

section Graphs

variable {D F : Type*} [CMath F] [CNarrow D F]

/-- The first operands decide what an operator parses. -/
theorem parseOperands_congr {kids kids' : List (NodeParser F)} (specs : List (Option ℚ)) (i : Nat)
    (h : ∀ j < specs.length, kids'[i + j]? = kids[i + j]?) (g : List (CgNode F)) :
    parseOperands kids' i specs g = parseOperands kids i specs g := by
  induction specs generalizing i g with
  | nil => rfl
  | cons spec specs ih =>
      have hhead : kids'[i]? = kids[i]? := h 0 (Nat.succ_pos _)
      have htail : ∀ j < specs.length, kids'[i + 1 + j]? = kids[i + 1 + j]? := by
        intro j hj
        have hnext := h (j + 1) (Nat.succ_lt_succ hj)
        rwa [show i + (j + 1) = i + 1 + j by omega] at hnext
      cases spec with
      | none => simp only [parseOperands, child, hhead, ih (i + 1) htail]
      | some dflt => simp only [parseOperands, childOrConst, hhead, ih (i + 1) htail]

/-- What an operator takes from its items besides operands. -/
theorem opShape_congr {items items' : List (Edn D)} (op : String)
    (hconst : op = "const" → (constArg items' : F) = constArg items)
    (hkw : ∀ i, keywordAt items' i = keywordAt items i) :
    (opShape op items' : Option (OpShape F)) = opShape op items := by
  unfold opShape
  split
  · rw [hconst rfl]
  · rw [hkw]
  · rw [hkw, fieldArg, fieldArg, hkw]
  all_goals rfl

theorem keywordAt_eq (items : List (Edn D)) (i : Nat) :
    keywordAt items i = (items[i]?).bind keywordName := by
  rw [keywordAt]
  cases items[i]? with
  | none => rfl
  | some v => cases v <;> rfl

/-- The argument of a `:const`, by index. -/
theorem constArg_eq (items : List (Edn D)) :
    (constArg items : F) = ((items[1]?).bind doubleOnly).getD (lit 0) := by
  match items with
  | [] => rfl
  | [_] => rfl
  | _ :: v :: _ => cases v <;> rfl

theorem parseVector_of_not_keyword {head : Edn D} (hhead : keywordName head = none)
    (items : List (Edn D)) (kids : List (NodeParser F)) :
    parseVector (head :: items) kids = fun g => (-1, g) := by
  cases head with
  | keyword op => cases hhead
  | _ => rfl

variable [CDouble D] {n : Int} {path : List EdnStep} {m m' : Entries D}

theorem Widens.keywordAt_set {items : List (Edn D)} {i : Nat} {v v' : Edn D}
    (hi : items[i]? = some v) (h : Widens n path v v') (j : Nat) :
    keywordAt (items.set i v') j = keywordAt items j := by
  rw [keywordAt_eq, keywordAt_eq]
  by_cases hij : i = j
  · have hlt := (List.getElem?_eq_some_iff.mp hi).1
    rw [← hij, List.getElem?_set_self hlt, hi, Option.bind_some, Option.bind_some,
      h.keywordName_eq]
  · rw [List.getElem?_set_ne hij]

variable [CTrunc D] [SmallIntExact D F]

/-- The argument of a `:const` is the same unless it is the literal, and is 0 either way
    for 0. -/
theorem Widens.constArg_set {items : List (Edn D)} {i : Nat} {v v' : Edn D}
    (hi : items[i]? = some v) (h : Widens n path v v')
    (hc : n = 0 ∨ ¬ (i = 1 ∧ path = [])) : (constArg (items.set i v') : F) = constArg items := by
  rw [constArg_eq, constArg_eq]
  by_cases hi1 : i = 1
  · -- the replaced item is the argument
    subst hi1
    have hlt := (List.getElem?_eq_some_iff.mp hi).1
    rw [List.getElem?_set_self hlt, hi, Option.bind_some, Option.bind_some]
    by_cases hpath : path = []
    · obtain rfl : n = 0 := hc.resolve_right (by simp [hpath])
      subst hpath
      cases h
      show CNarrow.narrow (CDouble.ofInt 0 : D) = (lit 0 : F)
      rw [SmallIntExact.narrow_ofInt 0 (by simp), SmallIntExact.ofInt_zero D]
    · rw [h.doubleOnly_eq hpath]
  · rw [List.getElem?_set_ne hi1]

/-- An operator with one item replaced, where the operand in its place is parsed alike. -/
theorem Widens.parseVector_set {op : String} {items : List (Edn D)} {i : Nat} {v v' : Edn D}
    (hi : items[i]? = some v) (h : Widens n path v v')
    (hc : n = 0 ∨ ¬ ConstArgAt F (.vectorItem (i + 1) :: path) (.vector (.keyword op :: items)))
    (hv : (n = 0 ∨ ¬ ConstArgAt F path v) → (parseNode v' : NodeParser F) = parseNode v) :
    parseVector (.keyword op :: items.set i v') ((items.set i v').map (parseNode (F := F))) =
      parseVector (.keyword op :: items) (items.map parseNode) := by
  have hi' : (Edn.keyword op :: items)[i + 1]? = some v := hi
  have hshape : (opShape op (.keyword op :: items.set i v') : Option (OpShape F)) =
      opShape op (.keyword op :: items) := by
    refine opShape_congr op ?_ (h.keywordAt_set hi')
    rintro rfl
    -- a `:const`: its argument is not the literal, or the literal is 0
    refine h.constArg_set hi' (hc.imp_right ?_)
    rintro hc ⟨hi1, rfl⟩
    obtain rfl : i = 0 := by omega
    exact hc .arg
  funext g
  simp only [parseVector, hshape]
  cases hsh : (opShape op (.keyword op :: items) : Option (OpShape F)) with
  | none => rfl
  | some sh =>
      -- items behind the last operand are not parsed, so they may differ
      have hkids : ∀ j < sh.operands.length,
          ((items.set i v').map (parseNode (F := F)))[0 + j]? = (items.map parseNode)[0 + j]? := by
        intro j hj
        rw [Nat.zero_add, List.getElem?_map, List.getElem?_map]
        by_cases hij : i = j
        · have hlt := (List.getElem?_eq_some_iff.mp hi).1
          rw [← hij, List.getElem?_set_self hlt, hi, Option.map_some, Option.map_some]
          rw [← hij] at hj
          exact congrArg some (hv (hc.imp_right fun hc hv => hc (.operand hsh hj hi hv)))
        · rw [List.getElem?_set_ne hij]
      simp only [parseOperands_congr sh.operands 0 hkids]

/-- `parse_node` sees the difference only in the argument of a `:const`. -/
theorem Widens.parseNode_eq {v v' : Edn D} (h : Widens n path v v') (hn : |n| ≤ 2 ^ 24)
    (hc : n = 0 ∨ ¬ ConstArgAt F path v) : (parseNode v' : NodeParser F) = parseNode v := by
  induction h with
  | here => rw [parseNode, parseNode, SmallIntExact.narrow_ofInt n hn]
  | @vector path items i v v' hi hw ih =>
      rw [parseNode, parseNode, parseNodes_eq_map, parseNodes_eq_map]
      cases items with
      | nil => cases hi
      | cons head items =>
          cases i with
          | zero =>
              -- in the operator's place neither value is a keyword
              obtain rfl : head = v := by simpa using hi
              have hhead' := hw.keywordName_eq.trans hw.keywordName_none
              rw [List.set_cons_zero, parseVector_of_not_keyword hhead',
                parseVector_of_not_keyword hw.keywordName_none]
          | succ i =>
              cases hhead : keywordName head with
              | none =>
                  rw [List.set_cons_succ, parseVector_of_not_keyword hhead,
                    parseVector_of_not_keyword hhead]
              | some op =>
                  obtain rfl : head = .keyword op := by
                    cases head with
                    | keyword s => rw [Option.some.inj hhead]
                    | _ => cases hhead
                  exact hw.parseVector_set hi hc ih
  | _ => rw [parseNode, parseNode] <;> simp

/-- One output expression of a map of outputs. -/
theorem Widens.parseOut_eq (h : Widens n path (.map m) (.map m')) (hn : |n| ≤ 2 ^ 24)
    {kw : String} (hkw : kw ∈ ["cv", "aux", "gate", "gate2"])
    (hc : n = 0 ∨ ¬ GraphConstAt F path (.map m)) :
    (parseOut (Edn.findKw kw m') : NodeParser F) = parseOut (Edn.findKw kw m) := by
  rcases h.findKw kw with heq | ⟨p, v, v', hp, hv, hv', hw⟩
  · rw [heq]
  · rw [hv, hv']
    exact hw.parseNode_eq hn (hc.imp_right fun hc hv₀ => hc ⟨kw, hkw, p, v, hp, hv, hv₀⟩)

/-- `parse_control_graph` on a map of outputs. -/
theorem Widens.parseControlGraph_map (h : Widens n path (.map m) (.map m')) (hn : |n| ≤ 2 ^ 24)
    (hc : n = 0 ∨ ¬ GraphConstAt F path (.map m)) (params : String → Option F) :
    parseControlGraph (.map m') params = parseControlGraph (.map m) params := by
  have hout : ∀ kw ∈ ["cv", "aux", "gate", "gate2"],
      (parseOut (Edn.findKw kw m') : NodeParser F) = parseOut (Edn.findKw kw m) :=
    fun kw hkw => h.parseOut_eq hn hkw hc
  simp only [parseControlGraph, outputExprs, hout "cv" (by simp), hout "aux" (by simp),
    hout "gate" (by simp), hout "gate2" (by simp)]

/-- `parse_control_graph` on either kind of value. -/
theorem Widens.parseControlGraph_eq {v v' : Edn D} (h : Widens n path v v') (hn : |n| ≤ 2 ^ 24)
    (hc : n = 0 ∨ ¬ GraphConstAt F path v) (params : String → Option F) :
    parseControlGraph v' params = parseControlGraph v params := by
  -- a value that is no map is the one output expression
  have hnode : (∀ g, v ≠ .map g) → (parseNode v' : NodeParser F) = parseNode v := by
    intro hmap
    refine h.parseNode_eq hn (hc.imp_right fun hc harg => hc ?_)
    cases v with
    | map g => exact absurd rfl (hmap g)
    | _ => exact harg
  cases h with
  | key hi hk => exact (Widens.key hi hk).parseControlGraph_map hn hc params
  | val hi hv => exact (Widens.val hi hv).parseControlGraph_map hn hc params
  | _ => simp only [parseControlGraph, outputExprs, parseOut, hnode (by simp)]

theorem Widens.graphParams_eq (h : Widens n path (.map m) (.map m')) (hn : |n| ≤ 2 ^ 24) :
    (graphParams (Edn.findKw "params" m') : String → Option F) =
      graphParams (Edn.findKw "params" m) := by
  rcases h.findKw "params" with heq | ⟨p, v, v', -, hv, hv', hw⟩
  · rw [heq]
  · rw [hv, hv']
    cases hw with
    | key hi hk =>
        refine foldl_set_eq hi (fun params => ?_) _
        simp only [addParam, hk.keywordName_eq]
    | val hi hw =>
        refine foldl_set_eq hi (fun params => ?_) _
        simp only [addParam, hw.number_eq hn]
    | _ => rfl

theorem Widens.buildGraph_eq (h : Widens n path (.map m) (.map m')) (hn : |n| ≤ 2 ^ 24)
    (hc : n = 0 ∨ ∀ p v, underKw "graph" m path = some p → Edn.findKw "graph" m = some v →
      ¬ GraphConstAt F p v) :
    (buildGraph m' : Option (GraphModulator F)) = buildGraph m := by
  rw [buildGraph, buildGraph, h.graphParams_eq hn]
  rcases h.findKw "graph" with heq | ⟨p, v, v', hp, hv, hv', hw⟩
  · rw [heq]
  · rw [hv, hv', Option.map_some, Option.map_some,
      hw.parseControlGraph_eq hn (hc.imp_right fun hc => hc p v hp hv)]

end Graphs

/-! ## The message -/

section Message

variable {D : Type*} [CDouble D] {n : Int} {path : List EdnStep} {m m' : Entries D}
variable {F : Type*} [CMath F] [CNarrow D F] [CTrunc D] [SmallIntExact D F]

/-- The sixteen types. -/
theorem Widens.buildModulator_eq (h : Widens n path (.map m) (.map m')) (hn : |n| ≤ 2 ^ 24)
    (typeName : String)
    (hgraph : typeName = "graph" → n = 0 ∨ ∀ p v, underKw "graph" m path = some p →
      Edn.findKw "graph" m = some v → ¬ GraphConstAt F p v)
    (hgenie : typeName = "genie" → ∀ kw ∈ ["gains", "sense", "response"], ∀ i < kMaxN,
      underKw kw m path ≠ some [.vectorItem i]) :
    (buildModulator typeName m' : Option (BuiltinModulator F)) = buildModulator typeName m := by
  -- one bullet for each type, in the order of the chain; the last is an unknown name
  unfold buildModulator
  split
  · rw [h.buildSlope_eq hn]
  · rw [h.buildSegment_eq hn]
  · rw [h.buildSlew_eq hn]
  · rw [h.buildShiftRegister_eq hn]
  · rw [h.buildFractal_eq hn]
  · rw [h.buildStochastic_eq hn]
  · rw [h.buildGraph_eq hn (hgraph rfl)]
  · rw [h.buildChannelDecoder_eq hn]
  · rw [h.buildDivineCmos_eq hn]
  · rw [buildStatues, buildStatues, h.getSrc_eq, h.getSrc_eq]
  · rw [buildCipher, buildCipher, h.getSrc_eq, h.getSrc_eq, h.getSrc_eq, h.getSrc_eq]
  · rw [h.buildBoolsRing_eq hn]
  · rw [h.buildSlothChaos_eq hn]
  · rw [h.buildSquidAxon_eq hn]
  · rw [h.buildGenie_eq hn (hgenie rfl)]
  · rw [buildLetsSplosh, buildLetsSplosh, h.getInsSrc_eq, h.getInsSrc_eq, h.getInsSrc_eq,
      h.getInsSrc_eq]
  · rfl

omit [CDouble D] [SmallIntExact D F] in
/-- The message by what it takes from the id and the type. -/
theorem modulatorStart_eq (m : Entries D) :
    (modulatorStart (.map m) : Option (List Byte × BuiltinModulator F)) =
      match (Edn.findKw "id" m).map modulatorId, (Edn.findKw "type" m).map keywordName with
      | some (b :: id), some t => (buildModulator (t.getD "") m).map fun mod => (b :: id, mod)
      | _, _ => none := by
  simp only [modulatorStart]
  cases Edn.findKw "id" m with
  | none => rfl
  | some idV =>
      cases Edn.findKw "type" m with
      | none => cases hid : modulatorId idV <;> simp [hid]
      | some typeV => cases hid : modulatorId idV <;> simp [hid]

omit [CDouble D] [CTrunc D] in
theorem hasType_of {b : Byte} {id : List Byte} {t : Option String} {typeName : String}
    (hid : (Edn.findKw "id" m).map modulatorId = some (b :: id))
    (htype : (Edn.findKw "type" m).map keywordName = some t) (hname : t.getD "" = typeName)
    (hne : typeName ≠ "") : HasType typeName m := by
  obtain ⟨idV, hidV, hbytes⟩ := Option.map_eq_some_iff.mp hid
  obtain ⟨typeV, htypeV, rfl⟩ := Option.map_eq_some_iff.mp htype
  refine ⟨⟨idV, hidV, by rw [hbytes]; exact List.cons_ne_nil _ _⟩, ?_⟩
  rw [htypeV, Option.bind_some]
  cases hkw : keywordName typeV with
  | none =>
      rw [hkw] at hname
      exact absurd hname.symm hne
  | some name =>
      rw [hkw] at hname
      exact congrArg some hname

/-- The message starts the same modulator. -/
theorem Widens.modulatorStart_map (h : Widens n path (.map m) (.map m')) (hn : |n| ≤ 2 ^ 24)
    (hm : ¬ Misread F n path (.map m)) :
    (modulatorStart (.map m') : Option (List Byte × BuiltinModulator F)) =
      modulatorStart (.map m) := by
  rw [Misread, not_or] at hm
  have hid : (Edn.findKw "id" m').map modulatorId = (Edn.findKw "id" m).map modulatorId := by
    rcases h.findKw "id" with heq | ⟨p, v, v', -, hv, hv', hw⟩
    · rw [heq]
    · rw [hv, hv', Option.map_some, Option.map_some, hw.modulatorId_eq]
  have htype : (Edn.findKw "type" m').map keywordName = (Edn.findKw "type" m).map keywordName := by
    rcases h.findKw "type" with heq | ⟨p, v, v', -, hv, hv', hw⟩
    · rw [heq]
    · rw [hv, hv', Option.map_some, Option.map_some, hw.keywordName_eq]
  -- so the same branch is taken, and only the modulator is left to compare
  rw [modulatorStart_eq, modulatorStart_eq, hid, htype]
  split
  · next b id t hid htype =>
    rw [h.buildModulator_eq hn]
    · -- a graph: the literal is 0 or no argument of a `:const`
      intro hname
      rw [← not_ne_iff, ← imp_iff_not_or]
      intro hne p v hp hv hc
      exact hm.1 ⟨hasType_of hid htype hname (by simp), hne, p, v, hp, hv, hc⟩
    · intro hname kw hkw i hi hp
      exact hm.2 ⟨hasType_of hid htype hname (by simp), kw, hkw, i, hi, hp⟩
  · rfl

theorem Widens.modulatorStart_eq {payload payload' : Edn D} (h : Widens n path payload payload')
    (hn : |n| ≤ 2 ^ 24) (hm : ¬ Misread F n path payload) :
    (modulatorStart payload' : Option (List Byte × BuiltinModulator F)) =
      modulatorStart payload := by
  cases h with
  | key hi hk => exact (Widens.key hi hk).modulatorStart_map hn hm
  | val hi hv => exact (Widens.val hi hv).modulatorStart_map hn hm
  | _ => rfl

/-- Integer and floating literals are interchangeable in `msg_modulator_start` except
    where the handler misreads an integer: for every payload and every integer literal of
    it up to 2²⁴ that is not misread, replacing the integer by the double starts under
    the same id a modulator with the same outputs on every run of ticks and updates, or
    starts none in both cases. -/
theorem literals_interchangeable_unless_misread {payload payload' : Edn D} (hn : |n| ≤ 2 ^ 24)
    (h : Widens n path payload payload') (hm : ¬ Misread F n path payload)
    (calls : List (ModulatorCall String String (ModulatorOutput F) D F)) :
    startedOutputs payload' calls = startedOutputs payload calls := by
  rw [startedOutputs, startedOutputs, h.modulatorStart_eq hn hm]

end Message

/-! ## Literals that are misread

Exact arithmetic for both floating types; no exponential or logarithm is taken. -/

section Exact

@[reducible] def exactMath : CMath ℚ :=
  { exactFloat with
    exp := fun _ => 0
    log := fun _ => 0
    pow := fun _ _ => 0
    round := fun x => ⌊x + 1 / 2⌋
    lerp := fun a b t => a + t * (b - a)
    eq := fun x y => decide (x = y) }

@[reducible] def exactDouble : CDouble ℚ where
  ofInt n := n
  add := (· + ·)
  div := (· / ·)
  ofFloatBits _ := 0
  toFloatBits _ := 0

@[reducible] def exactTrunc : CTrunc ℚ := ⟨exactFloat.toInt⟩

attribute [local instance] exactMath exactNarrow exactDouble exactTrunc

theorem smallIntExact_exact : SmallIntExact ℚ ℚ where
  narrow_ofInt _ _ := rfl
  trunc_ofInt n _ := by
    show (if 0 ≤ (n : ℚ) then ⌊(n : ℚ)⌋ else ⌈(n : ℚ)⌉) = n
    rw [Int.floor_intCast, Int.ceil_intCast, ite_self]
  ofInt_zero := rfl

/-- `{:id :a :type :graph :graph v}`. -/
def graphPayload (v : Edn ℚ) : Edn ℚ :=
  .map [(.keyword "id", .keyword "a"), (.keyword "type", .keyword "graph"), (.keyword "graph", v)]

/-- `{:id :a :type :genie :gains [v]}`. -/
def geniePayload (v : Edn ℚ) : Edn ℚ :=
  .map [(.keyword "id", .keyword "a"), (.keyword "type", .keyword "genie"),
    (.keyword "gains", .vector [v])]

/-- Two ticks without a recorded output. -/
def twoTicks : List (ModulatorCall String String (ModulatorOutput ℚ) ℚ ℚ) :=
  List.replicate 2 (.tick (fun _ => none) 0 24)

/-- The values of `.cv` after a message. -/
def startedCvs (payload : Edn ℚ) : Option (List ℚ) :=
  (startedOutputs payload twoTicks).map fun p => p.2.map (·.cv)

/-- `[:const 5]` shows 0 where `[:const 5.0]` shows 5, and a gain of 1 is left at 0.6
    where 1.0 is set. -/
theorem literals_misread :
    (Widens 5 [.val 2, .vectorItem 1] (graphPayload (.vector [.keyword "const", .int 5]))
        (graphPayload (.vector [.keyword "const", .double 5])) ∧
      startedCvs (graphPayload (.vector [.keyword "const", .int 5])) = some [0, 0] ∧
      startedCvs (graphPayload (.vector [.keyword "const", .double 5])) = some [5, 5] ∧
      startedOutputs (graphPayload (.vector [.keyword "const", .double 5])) twoTicks ≠
        startedOutputs (graphPayload (.vector [.keyword "const", .int 5])) twoTicks) ∧
    Widens 1 [.val 2, .vectorItem 0] (geniePayload (.int 1)) (geniePayload (.double 1)) ∧
      startedCvs (geniePayload (.int 1)) = some [1 / 4, 11 / 50] ∧
      startedCvs (geniePayload (.double 1)) = some [1 / 4, 1 / 5] ∧
      startedOutputs (geniePayload (.double 1)) twoTicks ≠
        startedOutputs (geniePayload (.int 1)) twoTicks := by
  refine ⟨⟨.val rfl (.vector rfl .here), ?_⟩, .val rfl (.vector rfl .here), ?_⟩
  · decide +kernel
  · decide +kernel

/-- `[:add v [:const 1.0]]`. -/
def sumExpr (v : Edn ℚ) : Edn ℚ :=
  .vector [.keyword "add", v, .vector [.keyword "const", .double 1]]

/-- A literal operand is read in both spellings. -/
theorem literals_interchangeable_sum :
    |(5 : Int)| ≤ 2 ^ 24 ∧
    Widens 5 [.val 2, .vectorItem 1] (graphPayload (sumExpr (.int 5)))
      (graphPayload (sumExpr (.double 5))) ∧
    ¬ Misread ℚ 5 [.val 2, .vectorItem 1] (graphPayload (sumExpr (.int 5))) ∧
    startedOutputs (graphPayload (sumExpr (.double 5))) twoTicks =
      startedOutputs (graphPayload (sumExpr (.int 5))) twoTicks ∧
    startedCvs (graphPayload (sumExpr (.int 5))) = some [6, 6] := by
  have hexact := smallIntExact_exact
  have hn : |(5 : Int)| ≤ 2 ^ 24 := by decide
  have hwidens : Widens 5 [.val 2, .vectorItem 1] (graphPayload (sumExpr (.int 5)))
      (graphPayload (sumExpr (.double 5))) := .val rfl (.vector rfl .here)
  have hread : ¬ Misread ℚ 5 [.val 2, .vectorItem 1] (graphPayload (sumExpr (.int 5))) := by
    rintro (⟨-, -, p, v, hp, hv, hc⟩ | ⟨⟨-, htype⟩, -⟩)
    · obtain rfl : [.vectorItem 1] = p := Option.some.inj hp
      obtain rfl : sumExpr (.int 5) = v := Option.some.inj hv
      exact absurd hc.eq_const (by decide)
    · exact absurd (Option.some.inj htype) (by decide)
  exact ⟨hn, hwidens, hread, literals_interchangeable_unless_misread hn hwidens hread twoTicks,
    by decide +kernel⟩

end Exact

end NomosRt.Modulator
