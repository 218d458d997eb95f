/-
  NomosRt.Modulator.SegmentKey

  The keys of `segment_modulator::update` that address a segment:
  `segment_<index>_primary` and `segment_<index>_secondary`.

  The index is accumulated digit by digit in an `int` and looked at when the loop is
  over.  An index without digits is read as 0, and one past the range of `int` as its
  residue; both may be the index of a segment.
-/

import NomosRt.Modulator.Literals
import NomosRt.Modulator.Phase

namespace NomosRt.Modulator

open NomosRt.Lib CFloat CMath

/-! ## Keys -/

/-- The fields of a segment that a key can name. -/
inductive SegmentField where
  | primary
  | secondary
  deriving DecidableEq, Repr

namespace SegmentField

/-- The name in a key. -/
def text : SegmentField → List Char
  | .primary => "primary".toList
  | .secondary => "secondary".toList

/-- A definition with the field set. -/
def set {F : Type*} (v : F) (d : SegmentDef F) : SegmentField → SegmentDef F
  | .primary => { d with primary := v }
  | .secondary => { d with secondary := v }

/-- The value of the field. -/
def get {F : Type*} (d : SegmentDef F) : SegmentField → F
  | .primary => d.primary
  | .secondary => d.secondary

theorem set_eq_self_iff {F : Type*} (v : F) (d : SegmentDef F) (field : SegmentField) :
    field.set v d = d ↔ field.get d = v := by
  cases field <;> cases d <;> simp [set, get, eq_comm]

end SegmentField

/-- `segment_<index>_<field>`. -/
def segmentKey (index : List Char) (field : SegmentField) : String :=
  String.ofList ("segment_".toList ++ (index ++ '_' :: field.text))

/-- A decimal digit. -/
def IsDecimal (c : Char) : Prop := '0' ≤ c ∧ c ≤ '9'

instance (c : Char) : Decidable (IsDecimal c) := inferInstanceAs (Decidable (_ ∧ _))

instance (index : List Char) : Decidable (∀ c ∈ index, IsDecimal c) :=
  List.decidableBAll IsDecimal index

/-- A numeral with one more digit. -/
def withDigit (n : Nat) (c : Char) : Nat := n * 10 + (c.toNat - '0'.toNat)

/-- The value of a decimal numeral. -/
def decimalValue (index : List Char) : Nat := index.foldl withDigit 0

/-- The `int` that the loop ends with. -/
def wrappedIndex (index : List Char) : Int := Int.bmod (decimalValue index) (2 ^ 32)

/-! ## What a key says -/

section Addressing

variable {F : Type*} [CMath F]

/-- The modulator with a field of one segment set, clamped to [0, 1]. -/
def Segment.withField (n : Nat) (field : SegmentField) (value : F) (s : Segment F) : Segment F :=
  { s with defs := s.defs.modify n fun d => field.set (clamp value (lit 0) (lit 1)) d }

/-- What the key is meant to do: a non-empty numeral below the number of segments sets the field of
    that segment, and nothing else does anything. -/
def Segment.addressed (index : List Char) (field : SegmentField)
    (value : F) (s : Segment F) : Segment F :=
  if index ≠ [] ∧ (∀ c ∈ index, IsDecimal c) ∧ decimalValue index < s.defs.length then
    s.withField (decimalValue index) field value
  else s

/-! ## The loop over the digits -/

theorem not_isDecimal_iff (c : Char) : ¬ IsDecimal c ↔ c < '0' ∨ '9' < c := by
  rw [IsDecimal, not_and_or, Char.not_le, Char.not_le]

/-- The loop computes the value modulo 2³². -/
theorem parseIndex_bmod (index : List Char) (n : Nat) (h : ∀ c ∈ index, IsDecimal c) :
    Segment.parseIndex index (Int.bmod n (2 ^ 32)) =
      some (Int.bmod (index.foldl withDigit n : Nat) (2 ^ 32)) := by
  induction index generalizing n with
  | nil => rfl
  | cons c cs ih =>
      rw [List.forall_mem_cons] at h
      have hdigit : ¬ (c < '0' ∨ '9' < c) := by
        rw [← not_isDecimal_iff, not_not]
        exact h.1
      have hstep : Int.bmod (Int.bmod n (2 ^ 32) * 10 + (c.toNat - '0'.toNat : Nat)) (2 ^ 32) =
          Int.bmod (withDigit n c : Nat) (2 ^ 32) := by
        rw [← Int.bmod_add_bmod, Int.bmod_mul_bmod, Int.bmod_add_bmod, withDigit, Int.natCast_add,
          Int.natCast_mul]
        rfl
      rw [Segment.parseIndex, if_neg hdigit, hstep, ih _ h.2, List.foldl_cons]

theorem parseIndex_eq_none {index : List Char} (h : ¬ ∀ c ∈ index, IsDecimal c) (idx : Int) :
    Segment.parseIndex index idx = none := by
  induction index generalizing idx with
  | nil => exact absurd (List.forall_mem_nil _) h
  | cons c cs ih =>
      rw [Segment.parseIndex]
      split_ifs with hdigit
      · rfl
      · apply ih
        intro hcs
        rw [← not_isDecimal_iff, not_not] at hdigit
        exact h (List.forall_mem_cons.mpr ⟨hdigit, hcs⟩)

theorem parseIndex_eq {index : List Char} (h : ∀ c ∈ index, IsDecimal c) :
    Segment.parseIndex index 0 = some (wrappedIndex index) := parseIndex_bmod index 0 h

/-! ## The two underscores -/

theorem text_no_underscore (field : SegmentField) : '_' ∉ field.text := by
  cases field <;> decide

theorem findIdx?_underscore {index : List Char} (h : '_' ∉ index) (rest : List Char) :
    (index ++ '_' :: rest).findIdx? (· = '_') = some index.length := by
  rw [List.findIdx?_append]
  have hnone : index.findIdx? (· = '_') = none := by
    rw [List.findIdx?_eq_none_iff]
    intro c hc
    rw [decide_eq_false_iff_not]
    rintro rfl
    exact h hc
  rw [hnone, List.findIdx?_cons]
  simp

/-- A key is taken apart at the first underscore behind `segment_`. -/
theorem keyTarget_eq {index : List Char} (h : '_' ∉ index) (rest : List Char) :
    Segment.keyTarget ("segment_".toList ++ (index ++ '_' :: rest)) =
      (Segment.parseIndex index 0).map fun idx => (idx, rest) := by
  have hlen : "segment_".toList.length = 8 := rfl
  have hdrop : (index ++ '_' :: rest).drop (index.length + 1) = rest := by
    rw [List.append_cons]
    exact List.drop_left' (by simp)
  rw [Segment.keyTarget, if_neg, List.drop_left' hlen]
  · simp only [findIdx?_underscore h, List.take_left', hdrop]
  · rw [List.take_left' hlen]
    simp
    omega

/-! ## `update` on such a key -/

theorem update_of_segment {key : String} {rest : List Char}
    (hkey : key.toList = "segment_".toList ++ rest) (value : F) (s : Segment F) :
    s.update key value =
      match Segment.keyTarget key.toList with
      | none => s
      | some (idx, field) =>
          if idx < 0 ∨ idx ≥ s.defs.length then s
          else if field = SegmentField.primary.text then s.withField idx.toNat .primary value
          else if field = SegmentField.secondary.text then s.withField idx.toNat .secondary value
          else s := by
  have hdepth : key ≠ "depth" := by
    rintro rfl
    simp at hkey
  have hrate : key ≠ "rate" := by
    rintro rfl
    simp at hkey
  rw [Segment.update, if_neg hdepth, if_neg hrate]
  rfl

/-- A key of one of the two forms sets the field of the segment that the loop ends with. -/
theorem update_segmentKey {index : List Char} (h : ∀ c ∈ index, IsDecimal c) (field : SegmentField)
    (value : F) (s : Segment F) :
    s.update (segmentKey index field) value =
      if wrappedIndex index < 0 ∨ wrappedIndex index ≥ s.defs.length then s
      else s.withField (wrappedIndex index).toNat field value := by
  have hunder : '_' ∉ index := fun hmem => absurd (h _ hmem) (by decide)
  have hkey : (segmentKey index field).toList = "segment_".toList ++ (index ++ '_' :: field.text) :=
    String.toList_ofList
  rw [update_of_segment hkey, hkey, keyTarget_eq hunder, parseIndex_eq h, Option.map_some]
  cases field with
  | primary => rfl
  | secondary => rfl

/-- Any other index leaves the modulator alone. -/
theorem update_segmentKey_of_not {index : List Char} (h : ¬ ∀ c ∈ index, IsDecimal c)
    (field : SegmentField) (value : F) (s : Segment F) :
    s.update (segmentKey index field) value = s := by
  have hkey : (segmentKey index field).toList = "segment_".toList ++ (index ++ '_' :: field.text) :=
    String.toList_ofList
  rw [update_of_segment hkey, hkey]
  by_cases hunder : '_' ∈ index
  · -- the key is cut inside the index, and what is left is no field
    obtain ⟨front, back, rfl, hfront⟩ := List.eq_append_cons_of_mem hunder
    rw [List.append_assoc, List.cons_append, keyTarget_eq hfront]
    have hfield : ∀ f : SegmentField, back ++ '_' :: field.text ≠ f.text := by
      intro f heq
      apply text_no_underscore f
      rw [← heq]
      simp
    cases Segment.parseIndex front 0 with
    | none => rfl
    | some idx =>
        rw [Option.map_some]
        simp only [hfield .primary, hfield .secondary, if_false, ite_self]
  · rw [keyTarget_eq hunder, parseIndex_eq_none h, Option.map_none]

/-- A key that begins with `segment_` and has neither form leaves the modulator alone. -/
theorem update_other_segment {key : String} {rest : List Char}
    (hkey : key.toList = "segment_".toList ++ rest)
    (hother : ∀ index field, key ≠ segmentKey index field) (value : F) (s : Segment F) :
    s.update key value = s := by
  rw [update_of_segment hkey]
  -- with a second underscore there is an index and a field of another name; without one, no target
  by_cases hunder : '_' ∈ rest
  · obtain ⟨index, field, hrest, hindex⟩ := List.eq_append_cons_of_mem hunder
    have hfield : ∀ f : SegmentField, field ≠ f.text := by
      intro f hf
      have htext : "segment_".toList ++ (index ++ '_' :: f.text) = key.toList := by
        rw [hkey, hrest, hf]
      exact hother index f (String.ofList_toList.symm.trans (congrArg String.ofList htext.symm))
    rw [hkey, hrest, keyTarget_eq hindex]
    cases Segment.parseIndex index 0 with
    | none => rfl
    | some idx =>
        rw [Option.map_some]
        simp only [hfield .primary, hfield .secondary, if_false, ite_self]
  · have hnone : Segment.keyTarget key.toList = none := by
      have hlen : "segment_".toList.length = 8 := rfl
      have hfind : rest.findIdx? (· = '_') = none := by
        rw [List.findIdx?_eq_none_iff]
        intro c hc
        rw [decide_eq_false_iff_not]
        rintro rfl
        exact hunder hc
      rw [Segment.keyTarget, hkey, List.drop_left' hlen]
      simp only [hfind, ite_self]
    rw [hnone]

/-! ## When a key does what it says -/

/-- The index is not a numeral, or it names a segment, or the residue of its value names none. -/
def AddressesRight (n : Nat) (index : List Char) : Prop :=
  (∀ c ∈ index, IsDecimal c) →
    (index ≠ [] ∧ decimalValue index < n) ∨ n ≤ decimalValue index % 2 ^ 32

/-- The segment that the residue names has the value already. -/
def Segment.AlreadySet (index : List Char) (field : SegmentField) (value : F) (s : Segment F) :
    Prop :=
  (s.defs[decimalValue index % 2 ^ 32]?).map (field.get ·) = some (clamp value (lit 0) (lit 1))

theorem withField_eq_self_iff {s : Segment F} {n : Nat} (hn : n < s.defs.length)
    (field : SegmentField) (value : F) :
    s.withField n field value = s ↔
      (s.defs[n]?).map (field.get ·) = some (clamp value (lit 0) (lit 1)) := by
  have hget : s.defs[n]? = some s.defs[n] := List.getElem?_eq_getElem hn
  rw [hget, Option.map_some, Option.some_inj, ← SegmentField.set_eq_self_iff]
  constructor
  · intro h
    have hdefs : s.defs.modify n (fun d => field.set (clamp value (lit 0) (lit 1)) d) = s.defs :=
      congrArg Segment.defs h
    have hn' := congrArg (fun l => l[n]?) hdefs
    simpa [hget] using hn'
  · intro h
    have hdefs : s.defs.modify n (fun d => field.set (clamp value (lit 0) (lit 1)) d) = s.defs := by
      apply List.ext_getElem?
      intro i
      rw [List.getElem?_modify]
      split_ifs with hi
      · rw [← hi, hget, Option.map_eq_map, Option.map_some, h]
      · simp
    rw [Segment.withField, hdefs]

/-- The residue names a segment only in the lower half of its range. -/
theorem wrappedIndex_of_lt {index : List Char} {n : Nat} (hn : n ≤ kMaxSegments)
    (h : decimalValue index % 2 ^ 32 < n) :
    wrappedIndex index = (decimalValue index % 2 ^ 32 : Nat) := by
  have hmax : n ≤ 36 := hn
  unfold wrappedIndex
  generalize decimalValue index = v at h ⊢
  rw [Int.bmod_def]
  push_cast
  split_ifs <;> omega

theorem wrappedIndex_of_le {index : List Char} {n : Nat} (h : n ≤ decimalValue index % 2 ^ 32) :
    wrappedIndex index < 0 ∨ wrappedIndex index ≥ n := by
  unfold wrappedIndex
  generalize decimalValue index = v at h ⊢
  rw [Int.bmod_def]
  push_cast
  split_ifs <;> omega

/-- A numeral sets the field of the segment that the residue of its value names. -/
theorem update_numeral {index : List Char} (h : ∀ c ∈ index, IsDecimal c) (field : SegmentField)
    (value : F) {s : Segment F} (hlen : s.defs.length ≤ kMaxSegments) :
    s.update (segmentKey index field) value =
      if decimalValue index % 2 ^ 32 < s.defs.length then
        s.withField (decimalValue index % 2 ^ 32) field value
      else s := by
  rw [update_segmentKey h]
  by_cases hin : decimalValue index % 2 ^ 32 < s.defs.length
  · have hrange : ¬ (wrappedIndex index < 0 ∨ wrappedIndex index ≥ s.defs.length) := by
      rw [wrappedIndex_of_lt hlen hin]
      omega
    rw [if_pos hin, if_neg hrange, wrappedIndex_of_lt hlen hin, Int.toNat_natCast]
  · rw [if_neg hin, if_pos (wrappedIndex_of_le (not_lt.mp hin))]

theorem update_eq_addressed_iff (index : List Char) (field : SegmentField) (value : F)
    {s : Segment F} (hlen : s.defs.length ≤ kMaxSegments) :
    s.update (segmentKey index field) value = s.addressed index field value ↔
      AddressesRight s.defs.length index ∨ s.AlreadySet index field value := by
  by_cases hdec : ∀ c ∈ index, IsDecimal c
  · rw [update_numeral hdec field value hlen, Segment.addressed, AddressesRight]
    -- the index wraps at 2³², so a numeral too large may address a segment that is there
    by_cases hin : decimalValue index % 2 ^ 32 < s.defs.length
    · rw [if_pos hin]
      by_cases hright : index ≠ [] ∧ decimalValue index < s.defs.length
      · have hmod : decimalValue index % 2 ^ 32 = decimalValue index := by
          have hmax : s.defs.length ≤ 36 := hlen
          omega
        rw [if_pos ⟨hright.1, hdec, hright.2⟩, hmod]
        exact iff_of_true rfl (.inl fun _ => .inl hright)
      · rw [if_neg fun h => hright ⟨h.1, h.2.2⟩, withField_eq_self_iff hin]
        constructor
        · exact .inr
        · rintro (h | h)
          · exact absurd (h hdec) (not_or.mpr ⟨hright, not_le.mpr hin⟩)
          · exact h
    · have hout : ¬ (index ≠ [] ∧ (∀ c ∈ index, IsDecimal c) ∧
          decimalValue index < s.defs.length) := by
        rintro ⟨-, -, hlt⟩
        exact hin (lt_of_le_of_lt (Nat.mod_le _ _) hlt)
      rw [if_neg hin, if_neg hout]
      exact iff_of_true rfl (.inl fun _ => .inr (not_lt.mp hin))
  · rw [update_segmentKey_of_not hdec, Segment.addressed, if_neg fun h => hdec h.2.1]
    exact iff_of_true rfl (.inl fun h => absurd h hdec)

end Addressing

/-! ## Runs -/

section Runs

variable {F : Type*} [CMath F] {I B : Type*}

theorem length_defs_update (key : String) (value : F) (s : Segment F) :
    (s.update key value).defs.length = s.defs.length := by
  rw [Segment.update]
  split_ifs
  · rfl
  · rfl
  · split
    · rfl
    · split_ifs <;> simp

theorem length_defs_tick (rate : F) (s : Segment F) :
    (s.tick rate).2.defs.length = s.defs.length := by
  rw [Segment.tick]
  split_ifs <;> rfl

/-- No call changes the number of segments. -/
theorem length_defs_le {defs : List (SegmentDef F)}
    {as : List (ModulatorCall I String (ModulatorOutput F) B F)} {s : Segment F}
    (hr : (callMachine (Segment.sem I B) (Segment.make defs)).Reached Machine.free as s) :
    s.defs.length ≤ kMaxSegments := by
  refine hr.invariant (I := fun s => s.defs.length ≤ kMaxSegments) (List.length_take_le _ _) ?_
  rintro s a s' hs - hstep
  cases a with
  | tick view beat rate =>
      cases hstep
      exact (length_defs_tick rate s).trans_le hs
  | update key value =>
      cases hstep
      exact (length_defs_update key value s).trans_le hs

/-- In every state a run reaches, a key of one of the two forms does what it says unless the residue
    of its index names a segment that the index does not; every other key that begins with
    `segment_` does nothing. -/
theorem segment_key_addresses {defs : List (SegmentDef F)}
    {as : List (ModulatorCall I String (ModulatorOutput F) B F)} {s : Segment F}
    (hr : (callMachine (Segment.sem I B) (Segment.make defs)).Reached Machine.free as s)
    (value : F) :
    (∀ index field,
      s.update (segmentKey index field) value = s.addressed index field value ↔
        AddressesRight s.defs.length index ∨ s.AlreadySet index field value) ∧
    (∀ key rest, key.toList = "segment_".toList ++ rest →
      (∀ index field, key ≠ segmentKey index field) → s.update key value = s) :=
  ⟨fun index field => update_eq_addressed_iff index field value (length_defs_le hr),
    fun _ _ hkey hother => update_other_segment hkey hother value s⟩

end Runs

/-! ## Two segments -/

section TwoSegments

attribute [local instance] exactMath

/-- Two steps at 0. -/
def twoSteps : Segment ℚ := Segment.make [⟨.step, 0, 0, false⟩, ⟨.step, 0, 0, false⟩]

theorem segment_key_addresses_twoSteps :
    (callMachine (Segment.sem Unit Unit) twoSteps).Reached Machine.free [] twoSteps ∧
    AddressesRight twoSteps.defs.length "1".toList ∧
    twoSteps.update "segment_1_primary" 1 = twoSteps.addressed "1".toList .primary 1 := by
  have hright : AddressesRight twoSteps.defs.length "1".toList := by
    intro _
    decide
  exact ⟨.start, hright,
    ((segment_key_addresses (.start : (callMachine (Segment.sem Unit Unit) twoSteps).Reached
      Machine.free [] twoSteps) 1).1 "1".toList .primary).mpr (.inl hright)⟩

/-- The primary value of the segment at `n`. -/
def primaryAt (s : Segment ℚ) (n : Nat) : Option ℚ := (s.defs[n]?).map SegmentDef.primary

/-- No digits set segment 0, and 2³² + 1 sets segment 1. -/
theorem segment_key_misaddresses :
    twoSteps.update "segment__primary" 1 ≠ twoSteps.addressed [] .primary 1 ∧
    twoSteps.update "segment_4294967297_primary" 1 ≠
      twoSteps.addressed "4294967297".toList .primary 1 := by
  have hlen : twoSteps.defs.length ≤ kMaxSegments := by decide
  -- neither index names a segment, but the residue of each names one that is not at 1
  have hmisses (index : List Char) (hdec : ∀ c ∈ index, IsDecimal c)
      (hnone : ¬ (index ≠ [] ∧ decimalValue index < 2)) (n : Nat)
      (hn : decimalValue index % 2 ^ 32 = n) (hzero : primaryAt twoSteps n = some 0) :
      twoSteps.update (segmentKey index .primary) 1 ≠ twoSteps.addressed index .primary 1 := by
    rw [ne_eq, update_eq_addressed_iff _ _ _ hlen]
    rintro (hright | hset)
    · rcases hright hdec with hnamed | hbeyond
      · exact hnone hnamed
      · rw [hn] at hbeyond
        rw [primaryAt, List.getElem?_eq_none hbeyond] at hzero
        cases hzero
    · rw [Segment.AlreadySet, hn] at hset
      have hone := hzero.symm.trans hset
      revert hone
      decide +kernel
  have hempty : segmentKey [] .primary = "segment__primary" := by decide +kernel
  have hlong : segmentKey "4294967297".toList .primary = "segment_4294967297_primary" := by
    decide +kernel
  refine ⟨?_, ?_⟩
  · rw [← hempty]
    exact hmisses [] (fun c hc => absurd hc List.not_mem_nil) (by decide) 0 (by decide)
      (by decide +kernel)
  · have hdigits : ("4294967297".toList.all fun c => decide (IsDecimal c)) = true := by
      decide +kernel
    rw [← hlong]
    exact hmisses "4294967297".toList
      (fun c hc => of_decide_eq_true (List.all_eq_true.mp hdigits c hc)) (by decide) 1 (by decide)
      (by decide +kernel)

end TwoSegments

end NomosRt.Modulator
