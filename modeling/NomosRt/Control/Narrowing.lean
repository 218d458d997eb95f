/-
  NomosRt.Control.Narrowing

  The integers of a payload in the narrower types of what is made of it.

  EDN integers have 64 bits; a CLAP note has 16-bit fields, a MIDI message bytes, an
  OSC event a 16-bit port and 32-bit arguments, and the tuning map of `msg_mts` is
  keyed by `int`.  Every handler casts (or masks) and none of them tests the range,
  so an integer counts by its residue.

  `KeptIn` says that what is produced has the payload's integers, `FitsIn` that they
  are in range, and `SameResidues` that two payloads differ by multiples of the
  ranges only.
-/

import NomosRt.Control.ChannelVoice
import NomosRt.Control.Mts

namespace NomosRt.Control

open NomosRt.Lib NomosRt.Osc NomosRt.Scheduler

/-! ## Ranges -/

/-- `n` is a value of the signed type of `w` bits. -/
def FitsSigned (w : Nat) (n : Int) : Prop := -2 ^ (w - 1) ≤ n ∧ n < 2 ^ (w - 1)

/-- `n` is a value of the unsigned type of `w` bits. -/
def FitsUnsigned (w : Nat) (n : Int) : Prop := 0 ≤ n ∧ n < 2 ^ w

theorem toInt_ofInt_eq_iff {w : Nat} (hw : 0 < w) (n : Int) :
    (BitVec.ofInt w n).toInt = n ↔ FitsSigned w n := by
  constructor
  · intro h
    rw [← h]
    exact ⟨BitVec.le_toInt _, BitVec.toInt_lt⟩
  · rintro ⟨hlo, hhi⟩
    exact BitVec.toInt_ofInt_eq_self hw hlo hhi

theorem toNat_ofInt_eq_iff {w : Nat} (n : Int) :
    ((BitVec.ofInt w n).toNat : Int) = n ↔ FitsUnsigned w n := by
  have hpos : (0 : Int) < 2 ^ w := by positivity
  have hcast : ((BitVec.ofInt w n).toNat : Int) = n % 2 ^ w := by
    rw [BitVec.toNat_ofInt, Int.toNat_of_nonneg]
    · push_cast
      rfl
    · exact Int.emod_nonneg _ (by exact_mod_cast hpos.ne')
  rw [hcast]
  constructor
  · intro h
    rw [← h]
    exact ⟨Int.emod_nonneg _ hpos.ne', Int.emod_lt_of_pos _ hpos⟩
  · rintro ⟨hlo, hhi⟩
    exact Int.emod_eq_of_lt hlo hhi

/-- A cast sees the residue. -/
theorem ofInt_eq_of_emod {w : Nat} {n n' : Int} (h : n % 2 ^ w = n' % 2 ^ w) :
    BitVec.ofInt w n = BitVec.ofInt w n' := by
  apply BitVec.eq_of_toNat_eq
  rw [BitVec.toNat_ofInt, BitVec.toNat_ofInt]
  push_cast
  rw [h]

section Narrowing

variable {D : Type*}

/-! ## Integers kept -/

/-- The stored value is the integer of the field, if the field is one. -/
def Keeps (field : Option Int) (stored : Int) : Prop := ∀ n ∈ field, stored = n

/-- The integers a note event was built from, in its fields. -/
def NoteKept (m : List (Edn D × Edn D)) : ClapEvent D → Prop
  | .note _ noteId port channel key _ =>
      Keeps (intField m "key") key.toInt ∧ Keeps (intField m "channel") channel.toInt ∧
        Keeps (intField m "port") port.toInt ∧ Keeps (intField m "note-id") noteId.toInt
  | .midi .. => False

/-- The integer at an index of a vector, if there is one. -/
def intItem (items : List (Edn D)) (i : Nat) : Option Int :=
  match items[i]? with
  | some (.int n) => some n
  | _ => none

/-- The integers a MIDI event was built from. -/
def MidiKept (m : List (Edn D × Edn D)) (items : List (Edn D)) : ClapEvent D → Prop
  | .midi port data0 data1 data2 =>
      Keeps (intField m "port") port.toNat ∧ Keeps (intItem items 0) data0.toNat ∧
        Keeps (intItem items 1) data1.toNat ∧ Keeps (intItem items 2) data2.toNat
  | .note .. => False

/-- The argument an item of `:args` should become. -/
def ArgKept : Edn D → Arg → Prop
  | .int n, arg => ∃ v, arg = .makeI v ∧ v.toInt = n
  | _, _ => True

/-- An item of `:args` of a type that is not dropped. -/
def isArgItem : Edn D → Bool
  | .int _ | .double _ | .string _ => true
  | _ => false

/-- The items of `:args` that become arguments. -/
def argItems (m : List (Edn D × Edn D)) : List (Edn D) :=
  match Edn.findKw "args" m with
  | some (.vector items) => items.filter isArgItem
  | _ => []

/-- The integers of an OSC event, in its port and in the bytes of its datagram. -/
def OscKept (m : List (Edn D × Edn D)) (ev : OscEvent) : Prop :=
  Keeps (intField m "port") ev.port.toNat ∧
    ∃ address args, Edn.findKw "address" m = some (.string address) ∧
      List.Forall₂ ArgKept (argItems m) args ∧
      ev.bytes.items =
        oscString address ++ (oscString (0x2C :: args.map Arg.tag) ++ (args.map Arg.bytes).flatten)

/-- The note event of a push, if it is one. -/
def Enqueue.clapEvent : Enqueue D → Option (ClapEvent D)
  | .input ev => some ev
  | .sched ⟨_, .clap, ev, _⟩ => some ev
  | _ => none

/-- The OSC event of a push, if it is one. -/
def Enqueue.oscEvent : Enqueue D → Option OscEvent
  | .sched ⟨_, .osc, _, oe⟩ => some oe
  | _ => none

/-- The messages that narrow integers. -/
inductive NarrowingType where
  | note (isOn : Bool)
  | scheduleBundle
  | midiIn
  | osc
  | mts

variable [CDouble D]

/-- What is produced from a payload map has its integers. -/
def KeptIn (cfg : Config D) (m : List (Edn D × Edn D)) : NarrowingType → Prop
  | .note isOn => ∀ e ∈ noteOnOff cfg isOn m, ∀ ev ∈ e.clapEvent, NoteKept m ev
  | .scheduleBundle =>
      ∀ items, Edn.findKw "events" m = some (.vector items) →
        ∀ em, .map em ∈ items → ∀ anchor, ∀ e ∈ bundleItem cfg anchor (.map em),
          (∀ ev ∈ e.clapEvent, NoteKept em ev) ∧ ∀ oe ∈ e.oscEvent, OscKept em oe
  | .midiIn =>
      ∀ items, Edn.findKw "data" m = some (.vector items) →
        ∀ e ∈ midiIn m, ∀ ev ∈ e.clapEvent, MidiKept m items ev
  | .osc => ∀ ev ∈ buildOscEventFromEdn cfg m, OscKept m ev
  | .mts =>
      ∀ entries, Edn.findKw "tuning" m = some (.map entries) →
        ∀ k v, (k, v) ∈ entries → ∀ n, k = .int n → ∀ store ∈ tuningStore (k, v), store.1 = n

/-! ## Integers in range -/

/-- The fields of a note are 16-bit integers. -/
def NoteFits (m : List (Edn D × Edn D)) : Prop :=
  ∀ kw ∈ ["key", "channel", "port", "note-id"], ∀ n ∈ intField m kw, FitsSigned 16 n

/-- The port is a `uint16_t` and the integer arguments are `int32_t`s. -/
def OscFits (m : List (Edn D × Edn D)) : Prop :=
  (∀ n ∈ intField m "port", FitsUnsigned 16 n) ∧ ∀ n, .int n ∈ argItems m → FitsSigned 32 n

/-- The `:type` of an event of a bundle, if it is a keyword. -/
def itemType (em : List (Edn D × Edn D)) : Option String :=
  match Edn.findKw "type" em with
  | some (.keyword name) => some name
  | _ => none

/-- An event of a bundle is `:osc`. -/
def IsOscItem (em : List (Edn D × Edn D)) : Prop := itemType em = some "osc"

/-- The integers that what is produced is made of are in range. -/
def FitsIn (cfg : Config D) (m : List (Edn D × Edn D)) : NarrowingType → Prop
  | .note _ => NoteFits m
  | .scheduleBundle =>
      ∀ items, Edn.findKw "events" m = some (.vector items) →
        ∀ em, .map em ∈ items →
          (IsOscItem em → (buildOscEventFromEdn cfg em).isSome → OscFits em) ∧
            (¬ IsOscItem em → NoteFits em)
  | .midiIn =>
      ∀ items, Edn.findKw "data" m = some (.vector items) →
        (∀ n ∈ intField m "port", FitsUnsigned 16 n) ∧
          ∀ i < 3, ∀ n ∈ intItem items i, FitsUnsigned 8 n
  | .osc => (buildOscEventFromEdn cfg m).isSome → OscFits m
  | .mts =>
      ∀ entries, Edn.findKw "tuning" m = some (.map entries) →
        ∀ k v, (k, v) ∈ entries → ∀ n, k = .int n → FitsSigned 32 n

/-! ## Kept exactly in range -/

omit [CDouble D] in
/-- The two spellings of the 16-bit cast: of the field, and of the field or its
    default. -/
theorem ofInt_getI (m : List (Edn D × Edn D)) (kw : String) (dflt : Int) :
    BitVec.ofInt 16 (getI m kw dflt) = getI16 m kw (BitVec.ofInt 16 dflt) := by
  unfold getI getI16
  split
  · rfl
  · rfl

omit [CDouble D] in
theorem keeps_iff {f : Int → Int} {P : Int → Prop} (hP : ∀ n, f n = n ↔ P n)
    {field : Option Int} {stored : Int} (hstored : ∀ n ∈ field, stored = f n) :
    Keeps field stored ↔ ∀ n ∈ field, P n := by
  constructor
  · intro h n hn
    rw [← hP, ← hstored n hn]
    exact h n hn
  · intro h n hn
    rw [hstored n hn]
    exact (hP n).mpr (h n hn)

omit [CDouble D] in
theorem findKw_of_mem_intField {m : List (Edn D × Edn D)} {kw : String} {n : Int}
    (h : n ∈ intField m kw) : Edn.findKw kw m = some (.int n) := by
  unfold intField at h
  split at h
  · next n' hfield =>
      rw [Option.mem_some_iff] at h
      rw [hfield, h]
  · cases h

omit [CDouble D] in
theorem getI16_of_intField {m : List (Edn D × Edn D)} {kw : String} {n : Int}
    (h : n ∈ intField m kw) (dflt : BitVec 16) : getI16 m kw dflt = BitVec.ofInt 16 n := by
  rw [getI16, findKw_of_mem_intField h]

omit [CDouble D] in
theorem keeps_getI16 (m : List (Edn D × Edn D)) (kw : String) (dflt : BitVec 16) :
    Keeps (intField m kw) (getI16 m kw dflt).toInt ↔ ∀ n ∈ intField m kw, FitsSigned 16 n :=
  keeps_iff (toInt_ofInt_eq_iff (by decide)) fun _ hn => by rw [getI16_of_intField hn]

omit [CDouble D] in
/-- A note made of a map's fields has them exactly when they fit. -/
theorem noteKept_iff (m : List (Edn D × Edn D)) (isOn : Bool) (key channel port noteId : BitVec 16)
    (velocity : D) :
    NoteKept m (makeNoteEvent isOn (getI16 m "key" key) (getI16 m "channel" channel)
      (getI16 m "port" port) (getI16 m "note-id" noteId) velocity) ↔ NoteFits m := by
  simp [NoteKept, makeNoteEvent, keeps_getI16, NoteFits]

theorem noteOnOff_clapEvent (cfg : Config D) (isOn : Bool) (m : List (Edn D × Edn D)) :
    ∃ e, noteOnOff cfg isOn m = [e] ∧ e.clapEvent =
      some (makeNoteEvent isOn (getI16 m "key" 60) (getI16 m "channel" 0) (getI16 m "port" 0)
        (getI16 m "note-id" (-1)) (getDbl m "velocity" (CDouble.ofInt 0))) := by
  unfold noteOnOff
  simp only
  split
  · exact ⟨_, rfl, rfl⟩
  · exact ⟨_, rfl, rfl⟩

omit [CDouble D] in
theorem midiByte_of_intItem {items : List (Edn D)} {i : Nat} {n : Int} (h : n ∈ intItem items i) :
    midiByte items i = BitVec.ofInt 8 n := by
  have hitem : items[i]? = some (.int n) := by
    unfold intItem at h
    split at h
    · next n' hitem =>
        rw [Option.mem_some_iff] at h
        rw [hitem, h]
    · cases h
  rw [midiByte, hitem]

omit [CDouble D] in
theorem keeps_midiByte (items : List (Edn D)) (i : Nat) :
    Keeps (intItem items i) (midiByte items i).toNat ↔ ∀ n ∈ intItem items i, FitsUnsigned 8 n :=
  keeps_iff toNat_ofInt_eq_iff fun _ hn => by rw [midiByte_of_intItem hn]

omit [CDouble D] in
theorem midiKept_iff (m : List (Edn D × Edn D)) (items : List (Edn D)) :
    MidiKept m items (.midi (getI16 m "port" 0) (midiByte items 0) (midiByte items 1)
        (midiByte items 2)) ↔
      (∀ n ∈ intField m "port", FitsUnsigned 16 n) ∧
        ∀ i < 3, ∀ n ∈ intItem items i, FitsUnsigned 8 n := by
  have hport : Keeps (intField m "port") (getI16 m "port" 0).toNat ↔
      ∀ n ∈ intField m "port", FitsUnsigned 16 n :=
    keeps_iff toNat_ofInt_eq_iff fun _ hn => by rw [getI16_of_intField hn]
  have hbytes : (∀ i < 3, ∀ n ∈ intItem items i, FitsUnsigned 8 n) ↔
      (∀ n ∈ intItem items 0, FitsUnsigned 8 n) ∧ (∀ n ∈ intItem items 1, FitsUnsigned 8 n) ∧
        ∀ n ∈ intItem items 2, FitsUnsigned 8 n := by
    constructor
    · intro h
      exact ⟨h 0 (by decide), h 1 (by decide), h 2 (by decide)⟩
    · rintro ⟨h₀, h₁, h₂⟩ i hi
      interval_cases i
      · exact h₀
      · exact h₁
      · exact h₂
  simp only [MidiKept, keeps_midiByte, hport, hbytes]

/-- The arguments of an OSC event. -/
def oscArgs (m : List (Edn D × Edn D)) : List Arg :=
  match Edn.findKw "args" m with
  | some (.vector items) => items.filterMap argOfEdn
  | _ => []

/-- Each kept item has its argument. -/
theorem forall₂_oscArgs (m : List (Edn D × Edn D)) :
    List.Forall₂ (fun item arg => argOfEdn item = some arg) (argItems m) (oscArgs m) := by
  unfold argItems oscArgs
  split
  · rename_i items hitems
    clear hitems
    induction items with
    | nil => exact .nil
    | cons item items ih =>
        cases item with
        | int n => exact .cons rfl ih
        | double x => exact .cons rfl ih
        | string s => exact .cons rfl ih
        | _ => exact ih
  · exact .nil

/-- The host of an OSC event. -/
def oscHost (m : List (Edn D × Edn D)) : List Byte :=
  match Edn.findKw "host" m with
  | some (.string host) => host
  | _ => ascii "127.0.0.1"

theorem buildOscEventFromEdn_eq (cfg : Config D) {m : List (Edn D × Edn D)} {address : List Byte}
    {port : Int} (haddress : Edn.findKw "address" m = some (.string address))
    (hport : Edn.findKw "port" m = some (.int port)) :
    buildOscEventFromEdn cfg m =
      buildOscEvent cfg (oscHost m) (BitVec.ofInt 16 port) address (oscArgs m) := by
  rw [buildOscEventFromEdn, haddress, hport]
  rfl

theorem buildOscEventFromEdn_none (cfg : Config D) {m : List (Edn D × Edn D)}
    (h : ¬ ∃ address port, Edn.findKw "address" m = some (.string address) ∧
      Edn.findKw "port" m = some (.int port)) : buildOscEventFromEdn cfg m = none := by
  unfold buildOscEventFromEdn
  split
  · rename_i address port haddress hport
    exact absurd ⟨address, port, haddress, hport⟩ h
  · rfl

omit [CDouble D] in
theorem buildOscEvent_some {cfg : Config D} {host address : List Byte} {port : BitVec 16}
    {args : List Arg} {ev : OscEvent} (h : buildOscEvent cfg host port address args = some ev) :
    ev.port = port ∧ ev.bytes.items =
      oscString address ++ (oscString (0x2C :: args.map Arg.tag) ++ (args.map Arg.bytes).flatten) := by
  unfold buildOscEvent at h
  split at h
  · cases h
  · split at h
    · rename_i bytes hencode
      cases h
      have hitems := items_encode (congrArg Prod.fst hencode)
      rw [hencode] at hitems
      exact ⟨rfl, hitems⟩
    · cases h

/-- An OSC event that is built has the cast of the port and the wire form of the
    arguments. -/
theorem buildOscEventFromEdn_some {cfg : Config D} {m : List (Edn D × Edn D)} {ev : OscEvent}
    (h : buildOscEventFromEdn cfg m = some ev) :
    ∃ address port, Edn.findKw "address" m = some (.string address) ∧
      Edn.findKw "port" m = some (.int port) ∧ ev.port = BitVec.ofInt 16 port ∧
      ev.bytes.items = oscString address ++
        (oscString (0x2C :: (oscArgs m).map Arg.tag) ++ ((oscArgs m).map Arg.bytes).flatten) := by
  by_cases hfound : ∃ address port, Edn.findKw "address" m = some (.string address) ∧
      Edn.findKw "port" m = some (.int port)
  swap
  · rw [buildOscEventFromEdn_none cfg hfound] at h
    cases h
  obtain ⟨address, port, haddress, hport⟩ := hfound
  rw [buildOscEventFromEdn_eq cfg haddress hport] at h
  exact ⟨address, port, haddress, hport, buildOscEvent_some h⟩

/-- An OSC event that is built has the map's integers exactly when they fit. -/
theorem oscKept_iff {cfg : Config D} {m : List (Edn D × Edn D)} {ev : OscEvent}
    (h : buildOscEventFromEdn cfg m = some ev) : OscKept m ev ↔ OscFits m := by
  obtain ⟨address, port, haddress, hport, hevport, hbytes⟩ := buildOscEventFromEdn_some h
  have hfield : intField m "port" = some port := by rw [intField, hport]
  have hkeeps : Keeps (intField m "port") ev.port.toNat ↔
      ∀ n ∈ intField m "port", FitsUnsigned 16 n := by
    refine keeps_iff toNat_ofInt_eq_iff fun n hn => ?_
    rw [hfield, Option.mem_some_iff] at hn
    rw [hevport, hn]
  rw [OscKept, OscFits, hkeeps]
  refine and_congr_right fun _ => ⟨?_, ?_⟩
  · -- an `int32_t` read from the datagram is in range
    rintro ⟨address', args, -, hargs, -⟩ n hn
    obtain ⟨i, hi, hitem⟩ := List.getElem_of_mem hn
    obtain ⟨hlen, hall⟩ := List.forall₂_iff_get.mp hargs
    have hkept := hall i hi (hlen ▸ hi)
    rw [List.get_eq_getElem, hitem] at hkept
    obtain ⟨v, -, hv⟩ := hkept
    rw [← hv]
    exact ⟨BitVec.le_toInt v, BitVec.toInt_lt⟩
  · intro hfits
    refine ⟨address, oscArgs m, haddress, ?_, hbytes⟩
    have hargs := forall₂_oscArgs m
    rw [List.forall₂_iff_get] at hargs ⊢
    refine ⟨hargs.1, fun i hi hi' => ?_⟩
    have harg := hargs.2 i hi hi'
    have hmem := List.get_mem (argItems m) ⟨i, hi⟩
    cases hitem : (argItems m).get ⟨i, hi⟩ with
    | int n =>
        rw [hitem] at harg hmem
        rw [argOfEdn, Option.some.injEq] at harg
        exact ⟨_, harg.symm, (toInt_ofInt_eq_iff (by decide) n).mpr (hfits n hmem)⟩
    | _ => trivial

/-- The beat of an event of a bundle. -/
def itemBeat (anchor : D) (em : List (Edn D × Edn D)) : D :=
  CDouble.add anchor (CDouble.div (CDouble.ofInt (getI em "at-tick" 0)) (CDouble.ofInt 24))

theorem bundleItem_osc (cfg : Config D) (anchor : D) {em : List (Edn D × Edn D)}
    (h : IsOscItem em) :
    bundleItem cfg anchor (.map em) =
      (buildOscEventFromEdn cfg em).toList.map fun oe =>
        .sched ⟨itemBeat anchor em, .osc, default, oe⟩ := by
  rw [IsOscItem] at h
  show (if itemType em = some "osc" then _ else _) = _
  rw [if_pos h]
  cases buildOscEventFromEdn cfg em with
  | none => rfl
  | some oe => rfl

theorem bundleItem_note (cfg : Config D) (anchor : D) {em : List (Edn D × Edn D)}
    (h : ¬ IsOscItem em) :
    bundleItem cfg anchor (.map em) =
      [.sched ⟨itemBeat anchor em, .clap,
        makeNoteEvent (itemType em ≠ some "note-off") (getI16 em "key" 60) (getI16 em "channel" 0)
          (getI16 em "port" 0) (getI16 em "note-id" (-1)) (getDbl em "velocity" (CDouble.ofInt 0)),
        default⟩] := by
  rw [IsOscItem] at h
  show (if itemType em = some "osc" then _ else _) = _
  rw [if_neg h]
  simp only [ofInt_getI]
  rfl

/-- An event of a bundle has its map's integers exactly when they fit. -/
theorem bundleItem_kept_iff (cfg : Config D) (em : List (Edn D × Edn D)) :
    (∀ anchor, ∀ e ∈ bundleItem cfg anchor (.map em),
        (∀ ev ∈ e.clapEvent, NoteKept em ev) ∧ ∀ oe ∈ e.oscEvent, OscKept em oe) ↔
      (IsOscItem em → (buildOscEventFromEdn cfg em).isSome → OscFits em) ∧
        (¬ IsOscItem em → NoteFits em) := by
  by_cases hosc : IsOscItem em
  · simp only [bundleItem_osc cfg _ hosc, hosc, not_true_eq_false, forall_const, false_implies,
      and_true]
    cases hbuild : buildOscEventFromEdn cfg em with
    | none => simp
    | some oe => simp [Enqueue.clapEvent, Enqueue.oscEvent, oscKept_iff hbuild, Nonempty.intro (CDouble.ofInt 0 : D)]
  · simp [bundleItem_note cfg _ hosc, hosc, Enqueue.clapEvent, Enqueue.oscEvent, noteKept_iff,
      Nonempty.intro (CDouble.ofInt 0 : D)]

/-- What a message produces has the payload's integers exactly when they are in the
    range of the types that hold them. -/
theorem keptIn_iff (cfg : Config D) (m : List (Edn D × Edn D)) (type : NarrowingType) :
    KeptIn cfg m type ↔ FitsIn cfg m type := by
  cases type with
  | note isOn =>
      obtain ⟨e, hpush, hev⟩ := noteOnOff_clapEvent cfg isOn m
      simp only [KeptIn, FitsIn, hpush, List.mem_singleton, forall_eq, hev, Option.mem_some_iff,
        forall_eq', noteKept_iff]
  | scheduleBundle =>
      -- item by item: both sides ask the same of each map in `:events`
      refine forall_congr' fun items => forall_congr' fun _ => forall_congr' fun em =>
        forall_congr' fun _ => ?_
      exact bundleItem_kept_iff cfg em
  | midiIn =>
      refine forall_congr' fun items => forall_congr' fun hdata => ?_
      simp only [midiIn, hdata, List.mem_singleton, forall_eq, Enqueue.clapEvent,
        Option.mem_some_iff, forall_eq']
      exact midiKept_iff m items
  | osc =>
      cases hbuild : buildOscEventFromEdn cfg m with
      | none => simp [KeptIn, FitsIn, hbuild]
      | some ev =>
          simp only [KeptIn, FitsIn, hbuild, Option.mem_some_iff, forall_eq', Option.isSome_some,
            forall_const]
          exact oscKept_iff hbuild
  | mts =>
      refine forall_congr' fun entries => forall_congr' fun _ => forall_congr' fun k =>
        forall_congr' fun v => forall_congr' fun _ => forall_congr' fun n => forall_congr' fun hk => ?_
      subst hk
      simp only [tuningStore, Option.mem_some_iff, forall_eq']
      -- the key of a `:tuning` entry goes through one conversion to `int`
      exact toInt_ofInt_eq_iff (by decide) n

/-! ## Handled by residue -/

/-- Equal, or integers that differ by a multiple of `2 ^ w`. -/
def ResidueEq (w : Nat) (v v' : Edn D) : Prop :=
  v = v' ∨ ∃ n n', v = .int n ∧ v' = .int n' ∧ n % 2 ^ w = n' % 2 ^ w

/-- The fields cast to 16 bits. -/
def shortFields : List String := ["key", "channel", "port", "note-id"]

/-- Two values of a field that differ by multiples of the ranges only; `item` relates
    the events of a bundle. -/
inductive FieldEq (item : Edn D → Edn D → Prop) : String → Edn D → Edn D → Prop where
  | same (kw : String) (v : Edn D) : FieldEq item kw v v
  | short {kw : String} {v v' : Edn D} (hkw : kw ∈ shortFields) (h : ResidueEq 16 v v') :
      FieldEq item kw v v'
  | args {items items' : List (Edn D)} (h : List.Forall₂ (ResidueEq 32) items items') :
      FieldEq item "args" (.vector items) (.vector items')
  | data {items items' : List (Edn D)} (h : List.Forall₂ (ResidueEq 8) items items') :
      FieldEq item "data" (.vector items) (.vector items')
  | tuning {entries entries' : List (Edn D × Edn D)}
      (h : List.Forall₂ (fun e e' => ResidueEq 32 e.1 e'.1 ∧ e.2 = e'.2) entries entries') :
      FieldEq item "tuning" (.map entries) (.map entries')
  | events {items items' : List (Edn D)} (h : List.Forall₂ item items items') :
      FieldEq item "events" (.vector items) (.vector items')

/-- The same fields, up to such values. -/
def FieldsEq (item : Edn D → Edn D → Prop) (m m' : List (Edn D × Edn D)) : Prop :=
  ∀ kw, Option.Rel (FieldEq item kw) (Edn.findKw kw m) (Edn.findKw kw m')

/-- Two events of a bundle. -/
def ItemEq (v v' : Edn D) : Prop :=
  v = v' ∨ ∃ em em', v = .map em ∧ v' = .map em' ∧ FieldsEq Eq em em'

/-- Two payload maps that differ by multiples of the ranges only. -/
def SameResidues (m m' : List (Edn D × Edn D)) : Prop := FieldsEq ItemEq m m'

section Residues

variable {item : Edn D → Edn D → Prop} {m m' : List (Edn D × Edn D)}

/-- The fields that may differ. -/
def narrowedFields : List String := shortFields ++ ["args", "data", "tuning", "events"]

omit [CDouble D] in
/-- Where two payloads differ, and how. -/
theorem FieldsEq.inv (h : FieldsEq item m m') (kw : String) :
    Edn.findKw kw m = Edn.findKw kw m' ∨
      ∃ v v', Edn.findKw kw m = some v ∧ Edn.findKw kw m' = some v' ∧
        ((kw ∈ shortFields ∧ ∃ n n', v = .int n ∧ v' = .int n' ∧ n % 2 ^ 16 = n' % 2 ^ 16) ∨
        (kw = "args" ∧ ∃ items items', v = .vector items ∧ v' = .vector items' ∧
          List.Forall₂ (ResidueEq 32) items items') ∨
        (kw = "data" ∧ ∃ items items', v = .vector items ∧ v' = .vector items' ∧
          List.Forall₂ (ResidueEq 8) items items') ∨
        (kw = "tuning" ∧ ∃ entries entries', v = .map entries ∧ v' = .map entries' ∧
          List.Forall₂ (fun e e' => ResidueEq 32 e.1 e'.1 ∧ e.2 = e'.2) entries entries') ∨
        (kw = "events" ∧ ∃ items items', v = .vector items ∧ v' = .vector items' ∧
          List.Forall₂ item items items')) := by
  have hrel := h kw
  -- the relation is between the two lookups, so they are made variables to take it apart
  generalize Edn.findKw kw m = a at hrel ⊢
  generalize Edn.findKw kw m' = b at hrel ⊢
  cases hrel with
  | none => exact .inl rfl
  | some hfield =>
      cases hfield with
      | same => exact .inl rfl
      | short hkw hres =>
          obtain rfl | hint := hres
          · exact .inl rfl
          · exact .inr ⟨_, _, rfl, rfl, .inl ⟨hkw, hint⟩⟩
      | args hitems => exact .inr ⟨_, _, rfl, rfl, .inr (.inl ⟨rfl, _, _, rfl, rfl, hitems⟩)⟩
      | data hitems => exact .inr ⟨_, _, rfl, rfl, .inr (.inr (.inl ⟨rfl, _, _, rfl, rfl, hitems⟩))⟩
      | tuning hentries =>
          exact .inr ⟨_, _, rfl, rfl, .inr (.inr (.inr (.inl ⟨rfl, _, _, rfl, rfl, hentries⟩)))⟩
      | events hitems =>
          exact .inr ⟨_, _, rfl, rfl, .inr (.inr (.inr (.inr ⟨rfl, _, _, rfl, rfl, hitems⟩)))⟩

omit [CDouble D] in
theorem FieldsEq.same (h : FieldsEq item m m') {kw : String} (hkw : kw ∉ narrowedFields) :
    Edn.findKw kw m = Edn.findKw kw m' := by
  simp only [narrowedFields, List.mem_append, List.mem_cons, List.not_mem_nil, or_false, not_or] at hkw
  obtain ⟨hshort, hargs, hdata, htuning, hevents⟩ := hkw
  simpa [hshort, hargs, hdata, htuning, hevents] using h.inv kw

omit [CDouble D] in
theorem FieldsEq.short (h : FieldsEq item m m') {kw : String} (hkw : kw ∈ shortFields) :
    Edn.findKw kw m = Edn.findKw kw m' ∨
      ∃ n n', Edn.findKw kw m = some (.int n) ∧ Edn.findKw kw m' = some (.int n') ∧
        n % 2 ^ 16 = n' % 2 ^ 16 := by
  refine (h.inv kw).imp_right ?_
  rintro ⟨v, v', hv, hv', ⟨-, n, n', rfl, rfl, hmod⟩ | ⟨rfl, -⟩ | ⟨rfl, -⟩ | ⟨rfl, -⟩ | ⟨rfl, -⟩⟩
  · exact ⟨n, n', hv, hv', hmod⟩
  all_goals simp [shortFields] at hkw

omit [CDouble D] in
theorem FieldsEq.getI16 (h : FieldsEq item m m') {kw : String} (hkw : kw ∈ shortFields)
    (dflt : BitVec 16) : getI16 m kw dflt = getI16 m' kw dflt := by
  unfold Control.getI16
  obtain heq | ⟨n, n', hn, hn', hmod⟩ := h.short hkw
  · rw [heq]
  · rw [hn, hn']
    exact ofInt_eq_of_emod hmod

theorem FieldsEq.getDbl (h : FieldsEq item m m') {kw : String} (hkw : kw ∉ narrowedFields)
    (dflt : D) : getDbl m kw dflt = getDbl m' kw dflt := by
  rw [Control.getDbl, Control.getDbl, h.same hkw]

theorem FieldsEq.noteOnOff (h : FieldsEq item m m') (cfg : Config D) (isOn : Bool) :
    noteOnOff cfg isOn m = noteOnOff cfg isOn m' := by
  unfold Control.noteOnOff
  rw [h.getI16 (by decide), h.getI16 (by decide), h.getI16 (by decide), h.getI16 (by decide),
    h.getDbl (by decide), h.getDbl (by decide), h.same (by decide)]

/-- What a vector of `:args` becomes depends on residues. -/
theorem filterMap_argOfEdn_eq {items items' : List (Edn D)}
    (h : List.Forall₂ (ResidueEq 32) items items') :
    items.filterMap argOfEdn = items'.filterMap argOfEdn := by
  induction h with
  | nil => rfl
  | cons hitem _ ih =>
      obtain rfl | ⟨n, n', rfl, rfl, hmod⟩ := hitem
      · rw [List.filterMap_cons, List.filterMap_cons, ih]
      · have harg : argOfEdn (.int n : Edn D) = argOfEdn (.int n' : Edn D) := by
          rw [argOfEdn, argOfEdn, ofInt_eq_of_emod hmod]
        rw [List.filterMap_cons, List.filterMap_cons, harg, ih]

theorem FieldsEq.oscArgs (h : FieldsEq item m m') : oscArgs m = oscArgs m' := by
  rw [Control.oscArgs, Control.oscArgs]
  obtain heq | ⟨v, v', hv, hv', hcase⟩ := h.inv "args"
  · rw [heq]
  · obtain ⟨items, rfl, items', rfl, hitems⟩ := by simpa [shortFields] using hcase
    rw [hv, hv']
    exact filterMap_argOfEdn_eq hitems

theorem FieldsEq.buildOscEventFromEdn (h : FieldsEq item m m') (cfg : Config D) :
    buildOscEventFromEdn cfg m = buildOscEventFromEdn cfg m' := by
  have haddress : Edn.findKw "address" m = Edn.findKw "address" m' := h.same (by decide)
  have hhost : oscHost m = oscHost m' := by rw [oscHost, oscHost, h.same (by decide)]
  have hport : Edn.findKw "port" m = Edn.findKw "port" m' ∨ _ := h.short (by decide)
  by_cases hfound : ∃ address port, Edn.findKw "address" m' = some (.string address) ∧
      Edn.findKw "port" m' = some (.int port)
  · obtain ⟨address, port, ha, hp⟩ := hfound
    rw [buildOscEventFromEdn_eq cfg ha hp, ← h.oscArgs, ← hhost]
    obtain heq | ⟨n, n', hn, hn', hmod⟩ := hport
    · rw [buildOscEventFromEdn_eq cfg (haddress.trans ha) (heq.trans hp)]
    · rw [hp, Option.some.injEq, Edn.int.injEq] at hn'
      rw [buildOscEventFromEdn_eq cfg (haddress.trans ha) hn, hn', ofInt_eq_of_emod hmod]
  · rw [buildOscEventFromEdn_none cfg hfound, buildOscEventFromEdn_none]
    rintro ⟨address, port, ha, hp⟩
    obtain heq | ⟨n, n', hn, hn', hmod⟩ := hport
    · exact hfound ⟨address, port, haddress ▸ ha, heq ▸ hp⟩
    · exact hfound ⟨address, n', haddress ▸ ha, hn'⟩

theorem FieldsEq.bundleItem (h : FieldsEq item m m') (cfg : Config D) (anchor : D) :
    bundleItem cfg anchor (.map m) = bundleItem cfg anchor (.map m') := by
  have htype : itemType m = itemType m' := by rw [itemType, itemType, h.same (by decide)]
  have hbeat : itemBeat anchor m = itemBeat anchor m' := by
    rw [itemBeat, itemBeat, getI, getI, h.same (by decide)]
  by_cases hosc : IsOscItem m
  · have hosc' : IsOscItem m' := by rwa [IsOscItem, ← htype]
    rw [bundleItem_osc cfg anchor hosc, bundleItem_osc cfg anchor hosc', h.buildOscEventFromEdn, hbeat]
  · have hosc' : ¬ IsOscItem m' := by rwa [IsOscItem, ← htype]
    rw [bundleItem_note cfg anchor hosc, bundleItem_note cfg anchor hosc', htype, hbeat,
      h.getI16 (by decide), h.getI16 (by decide), h.getI16 (by decide), h.getI16 (by decide),
      h.getDbl (by decide)]

theorem flatMap_bundleItem_eq (cfg : Config D) (anchor : D) {items items' : List (Edn D)}
    (h : List.Forall₂ ItemEq items items') :
    items.flatMap (bundleItem cfg anchor) = items'.flatMap (bundleItem cfg anchor) := by
  induction h with
  | nil => rfl
  | cons hitem _ ih =>
      rw [List.flatMap_cons, List.flatMap_cons, ih]
      congr 1
      obtain rfl | ⟨em, em', rfl, rfl, hfields⟩ := hitem
      · rfl
      · exact hfields.bundleItem cfg anchor

theorem SameResidues.scheduleBundle (h : SameResidues m m') (cfg : Config D) :
    scheduleBundle cfg m = scheduleBundle cfg m' := by
  have hanchor : Edn.findKw "at-beat" m = Edn.findKw "at-beat" m' := FieldsEq.same h (by decide)
  rw [Control.scheduleBundle, Control.scheduleBundle, hanchor]
  obtain heq | ⟨v, v', hv, hv', hcase⟩ := FieldsEq.inv h "events"
  · rw [heq]
  · obtain ⟨items, rfl, items', rfl, hitems⟩ := by simpa [shortFields] using hcase
    rw [hv, hv']
    cases Edn.findKw "at-beat" m' with
    | none => rfl
    | some beat => exact flatMap_bundleItem_eq cfg _ hitems

omit [CDouble D] in
theorem midiByte_eq {items items' : List (Edn D)} (h : List.Forall₂ (ResidueEq 8) items items')
    (i : Nat) : midiByte items i = midiByte items' i := by
  unfold midiByte
  induction h generalizing i with
  | nil => rfl
  | cons hitem _ ih =>
      cases i with
      | zero =>
          obtain rfl | ⟨n, n', rfl, rfl, hmod⟩ := hitem
          · rfl
          · exact ofInt_eq_of_emod hmod
      | succ i => exact ih i

omit [CDouble D] in
theorem FieldsEq.midiIn (h : FieldsEq item m m') : midiIn m = midiIn m' := by
  rw [Control.midiIn, Control.midiIn, h.getI16 (by decide)]
  obtain heq | ⟨v, v', hv, hv', hcase⟩ := h.inv "data"
  · rw [heq]
  · obtain ⟨items, rfl, items', rfl, hitems⟩ := by simpa [shortFields] using hcase
    rw [hv, hv']
    simp only [midiByte_eq hitems]

/-- The tuning depends on the residues of the keys. -/
theorem tuningOf_eq {entries entries' : List (Edn D × Edn D)}
    (h : List.Forall₂ (fun e e' => ResidueEq 32 e.1 e'.1 ∧ e.2 = e'.2) entries entries') :
    tuningOf entries = tuningOf entries' := by
  have hstores : entries.filterMap tuningStore = entries'.filterMap tuningStore := by
    induction h with
    | nil => rfl
    | cons hentry _ ih =>
        rename_i e e' _ _ _
        obtain ⟨k, v⟩ := e
        obtain ⟨k', v'⟩ := e'
        obtain ⟨hkey, rfl⟩ := hentry
        have hstore : tuningStore (k, v) = tuningStore (k', v) := by
          obtain heq | ⟨n, n', heq, heq', hmod⟩ := hkey
          · simp only at heq
            rw [heq]
          · simp only at heq heq'
            rw [heq, heq', tuningStore, tuningStore, ofInt_eq_of_emod hmod]
        rw [List.filterMap_cons, List.filterMap_cons, hstore, ih]
  rw [tuningOf, tuningOf, hstores]

end Residues

/-! ## The messages -/

/-- What `msg_osc` hands to `osc_server::send_event`; `osc` is `cfg_.osc != nullptr`. -/
def sendOsc (cfg : Config D) (osc : Bool) (payload : List Byte) : Option OscEvent :=
  if !osc || payload.isEmpty then none
  else
    match cfg.parse payload with
    | some (.map m) => buildOscEventFromEdn cfg m
    | _ => none

/-- A queued event, a datagram or a dump. -/
inductive Produced (D : Type*) where
  | queued (e : Enqueue D)
  | datagram (ev : OscEvent)
  | dump (bytes : List Byte)

/-- What `dispatch_message` produces for a message of one of the types. -/
def dispatched [PitchMath D] (cfg : Config D) (midi osc : Bool) (payload : List Byte) :
    NarrowingType → List (Produced D)
  | .note isOn =>
      (dispatchMessage cfg (if isOn then msgNoteOn else msgNoteOff) payload).map .queued
  | .scheduleBundle => (dispatchMessage cfg msgScheduleBundle payload).map .queued
  | .midiIn => (dispatchMessage cfg msgMidiIn payload).map .queued
  | .osc => (sendOsc cfg osc payload).toList.map .datagram
  | .mts => (sendMts cfg midi payload).toList.map .dump

section Dispatched

variable {m m' : List (Edn D × Edn D)} {payload payload' : List Byte} {cfg : Config D}

theorem SameResidues.dispatchMessage (h : SameResidues m m') (hne : payload.isEmpty = false)
    (hne' : payload'.isEmpty = false) (hparse : cfg.parse payload = some (.map m))
    (hparse' : cfg.parse payload' = some (.map m')) (type : Byte) :
    dispatchMessage cfg type payload = dispatchMessage cfg type payload' := by
  have hpath : Edn.findKw "path" m = Edn.findKw "path" m' := FieldsEq.same h (by decide)
  have hvalue : Edn.findKw "value" m = Edn.findKw "value" m' := FieldsEq.same h (by decide)
  have hparam : paramSet m = paramSet m' := by rw [paramSet, paramSet, hpath, hvalue]
  rw [Control.dispatchMessage, Control.dispatchMessage, hne, hne', hparse, hparse']
  simp only [hparam, FieldsEq.noteOnOff h, h.scheduleBundle, FieldsEq.midiIn h]

theorem SameResidues.sendOsc (h : SameResidues m m') (hne : payload.isEmpty = false)
    (hne' : payload'.isEmpty = false) (hparse : cfg.parse payload = some (.map m))
    (hparse' : cfg.parse payload' = some (.map m')) (osc : Bool) :
    sendOsc cfg osc payload = sendOsc cfg osc payload' := by
  rw [Control.sendOsc, Control.sendOsc, hne, hne', hparse, hparse']
  simp only [FieldsEq.buildOscEventFromEdn h]

theorem SameResidues.sendMts [PitchMath D] (h : SameResidues m m') (hne : payload.isEmpty = false)
    (hne' : payload'.isEmpty = false) (hparse : cfg.parse payload = some (.map m))
    (hparse' : cfg.parse payload' = some (.map m')) (midi : Bool) :
    sendMts cfg midi payload = sendMts cfg midi payload' := by
  have hprog : getU7 m "tuning-prog" 0 = getU7 m' "tuning-prog" 0 := by
    rw [getU7, getU7, FieldsEq.same h (by decide)]
  have hdev : getU7 m "device-id" 0x7F = getU7 m' "device-id" 0x7F := by
    rw [getU7, getU7, FieldsEq.same h (by decide)]
  rw [Control.sendMts, Control.sendMts, hne, hne', hparse, hparse']
  simp only [hprog, hdev]
  obtain heq | ⟨v, v', hv, hv', hcase⟩ := FieldsEq.inv h "tuning"
  · rw [heq]
  · obtain ⟨entries, rfl, entries', rfl, hentries⟩ := by simpa [shortFields] using hcase
    rw [hv, hv']
    simp only [tuningOf_eq hentries]

theorem isEmpty_eq_false {payload : List Byte} (h : payload ≠ []) : payload.isEmpty = false := by
  cases payload with
  | nil => exact absurd rfl h
  | cons b rest => rfl

/-- Narrowing is by residue: what a message produces has the payload's integers
    exactly when they are in range, and a message whose integers are out of range is
    handled as one whose integers are their residues. -/
theorem narrowing_by_residue [PitchMath D] (cfg : Config D) (midi osc : Bool) (type : NarrowingType)
    (payload payload' : List Byte) (m m' : List (Edn D × Edn D)) (hne : payload ≠ [])
    (hne' : payload' ≠ []) (hparse : cfg.parse payload = some (.map m))
    (hparse' : cfg.parse payload' = some (.map m')) :
    (KeptIn cfg m type ↔ FitsIn cfg m type) ∧
      (SameResidues m m' →
        dispatched cfg midi osc payload type = dispatched cfg midi osc payload' type) := by
  refine ⟨keptIn_iff cfg m type, fun h => ?_⟩
  have hmessage := h.dispatchMessage (isEmpty_eq_false hne) (isEmpty_eq_false hne') hparse hparse'
  cases type with
  | note isOn => rw [dispatched, dispatched, hmessage]
  | scheduleBundle => rw [dispatched, dispatched, hmessage]
  | midiIn => rw [dispatched, dispatched, hmessage]
  | osc =>
      rw [dispatched, dispatched,
        h.sendOsc (isEmpty_eq_false hne) (isEmpty_eq_false hne') hparse hparse']
  | mts =>
      rw [dispatched, dispatched,
        h.sendMts (isEmpty_eq_false hne) (isEmpty_eq_false hne') hparse hparse']

end Dispatched

end Narrowing

/-! ## A key out of range -/

/-- `{:key n}`. -/
def keyFields (n : Int) : List (Edn Frequency × Edn Frequency) := [(.keyword "key", .int n)]

/-- A server whose parser knows two payloads. -/
def twoKeys : Config Frequency :=
  ⟨false, fun payload =>
    if payload = [0x7B] then some (.map (keyFields 65596))
    else if payload = [0x5B] then some (.map (keyFields 60)) else none, fun _ => none⟩

theorem sameResidues_keyFields {n n' : Int} (h : n % 2 ^ 16 = n' % 2 ^ 16) :
    SameResidues (keyFields n) (keyFields n') := by
  intro kw
  unfold keyFields
  simp only [Edn.findKw]
  split
  · rename_i hkw
    exact .some (.short (hkw ▸ by decide) (.inr ⟨n, n', rfl, rfl, h⟩))
  · exact .none

/-- Key 65596 is handled as key 60. -/
theorem narrowing_twoKeys :
    dispatched twoKeys true true [0x7B] (.note true) = dispatched twoKeys true true [0x5B] (.note true) :=
  (narrowing_by_residue twoKeys true true (.note true) [0x7B] [0x5B] (keyFields 65596) (keyFields 60)
    (by decide) (by decide) rfl rfl).2 (sameResidues_keyFields (by decide))

/-- `{:key 65596}` is not rejected: a note event is queued, and its key is 60. -/
theorem note_key_wraps :
    ∃ velocity, dispatchMessage twoKeys msgNoteOn [0x7B] =
        [.input (.note true (-1) 0 0 60 velocity)] ∧
      ¬ KeptIn twoKeys (keyFields 65596) (.note true) := by
  refine ⟨.silent, rfl, ?_⟩
  rw [keptIn_iff]
  intro h
  have hfits := h "key" (by decide) 65596 rfl
  exact absurd hfits.2 (by decide)

end NomosRt.Control
