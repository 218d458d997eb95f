/-
  NomosRt.Osc.Fits

  When an OSC message fits its buffer.

  `encode` meets the capacity of its `small_vector` at three different places: byte
  by byte for the tag string, in blocks of four for numbers, and by the padded
  length for strings.  Together they amount to one bound on the length of the whole
  message.  To say that nothing is written past the storage, the vector is taken
  down to its array: a store outside it has no result.

  The second encoder, `build_osc_string_msg`, lays out one string argument by
  offsets into a zeroed vector, and the two agree.
-/

import NomosRt.Osc.Server

namespace NomosRt.Osc

open NomosRt.Lib

/-! ## Lengths -/

/-- The length of a string with its terminator, rounded up to a multiple of four. -/
def paddedLen (n : Nat) : Nat := (n / 4 + 1) * 4

/-- The tags that `encode` knows. -/
def Arg.Known (a : Arg) : Prop := a.tag = tagInt ∨ a.tag = tagFloat ∨ a.tag = tagString

/-- The bytes an argument takes. -/
def Arg.size (a : Arg) : Nat :=
  if a.tag = tagInt ∨ a.tag = tagFloat then 4 else paddedLen a.s.length

/-- The length of a message: the address, the tag string with its comma, the
    arguments. -/
def requiredLength (address : List Byte) (args : List Arg) : Nat :=
  paddedLen address.length + paddedLen (args.length + 1) + (args.map Arg.size).sum

/-- The message on the wire. -/
def wireMessage (address : List Byte) (args : List Arg) : List Byte :=
  oscString address ++ (oscString (0x2C :: args.map Arg.tag) ++ (args.map Arg.bytes).flatten)

theorem length_oscString_padded (s : List Byte) : (oscString s).length = paddedLen s.length := by
  rw [length_oscString, pad4_succ, paddedLen]

theorem length_bytes (a : Arg) : a.bytes.length = a.size := by
  unfold Arg.bytes Arg.size
  by_cases hi : a.tag = tagInt
  · simp [hi]
  · by_cases hf : a.tag = tagFloat
    · rw [if_neg hi, if_pos hf, if_pos (Or.inr hf), length_beBytes]
    · simp [hi, hf, length_oscString_padded]

theorem length_args (args : List Arg) :
    (args.map Arg.bytes).flatten.length = (args.map Arg.size).sum := by
  rw [List.length_flatten, List.map_map]
  congr 1
  apply List.map_congr_left
  intro a _
  exact length_bytes a

theorem length_wireMessage (address : List Byte) (args : List Arg) :
    (wireMessage address args).length = requiredLength address args := by
  rw [wireMessage, List.length_append, List.length_append, length_oscString_padded,
    length_oscString_padded, length_args, requiredLength, List.length_cons, List.length_map]
  omega

theorem four_dvd_requiredLength (address : List Byte) (args : List Arg) :
    4 ∣ requiredLength address args := by
  have hsum : 4 ∣ (args.map Arg.size).sum := by
    induction args with
    | nil => simp
    | cons a args ih =>
        have hsize : 4 ∣ a.size := by
          unfold Arg.size paddedLen
          split
          · exact ⟨1, rfl⟩
          · exact ⟨a.s.length / 4 + 1, by omega⟩
        rw [List.map_cons, List.sum_cons]
        omega
  unfold requiredLength paddedLen
  omega

/-! ## When the encoder succeeds

Every step of `encode` appends a run of bytes, and returns true exactly when the run
fits; such steps compose. -/

section Succeeds

open SmallVector

variable {T : Type*} {cap : Nat}

/-- The step appends `xs`, if there is room for all of it, and fails otherwise. -/
structure Appends (f : SmallVector T cap → Bool × SmallVector T cap) (xs : List T) : Prop where
  ok_iff : ∀ v, (f v).1 = true ↔ v.items.length + xs.length ≤ cap
  items : ∀ v, (f v).1 = true → (f v).2.items = v.items ++ xs

theorem andThen_fst_iff (r : Bool × SmallVector T cap)
    (k : SmallVector T cap → Bool × SmallVector T cap) :
    (andThen r k).1 = true ↔ r.1 = true ∧ (k r.2).1 = true := by
  constructor
  · intro h
    obtain ⟨hr, hk, -⟩ := andThen_ok h
    exact ⟨hr, hk⟩
  · rintro ⟨hr, hk⟩
    rw [andThen, if_pos hr]
    exact hk

theorem Appends.andThen {f g : SmallVector T cap → Bool × SmallVector T cap} {xs ys : List T}
    (hf : Appends f xs) (hg : Appends g ys) :
    Appends (fun v => SmallVector.andThen (f v) g) (xs ++ ys) where
  ok_iff v := by
    rw [andThen_fst_iff, List.length_append]
    -- room for both runs is room for the first and, behind it, for the second
    constructor
    · rintro ⟨hfirst, hrest⟩
      rw [hg.ok_iff, hf.items v hfirst, List.length_append] at hrest
      omega
    · intro hall
      have hfirst : (f v).1 = true := (hf.ok_iff v).mpr (by omega)
      refine ⟨hfirst, ?_⟩
      rw [hg.ok_iff, hf.items v hfirst, List.length_append]
      omega
  items v h := by
    obtain ⟨hfirst, hrest, heq⟩ := andThen_ok h
    show (SmallVector.andThen (f v) g).2.items = _
    rw [heq, hg.items _ hrest, hf.items v hfirst, List.append_assoc]

theorem appends_pushBack (x : T) : Appends (fun v : SmallVector T cap => v.pushBack x) [x] where
  ok_iff v := by
    have hfits := v.fits
    rw [pushBack]
    split
    · simp only [Bool.false_eq_true, false_iff, List.length_singleton]
      omega
    · simp only [true_iff, List.length_singleton]
      omega
  items v := items_pushBack v x

theorem appends_append (src : List T) : Appends (fun v : SmallVector T cap => v.append src) src where
  ok_iff v := by
    have hfits := v.fits
    rw [append]
    split
    · simp only [Bool.false_eq_true, false_iff]
      omega
    · simp only [true_iff]
      omega
  items v := items_append v src

/-- Pushing one by one succeeds exactly when all fit at once. -/
theorem appends_pushAll (xs : List T) :
    Appends (fun v : SmallVector T cap => v.pushAll xs) xs := by
  induction xs with
  | nil => exact ⟨fun v => by simp [pushAll, v.fits], fun v _ => (List.append_nil _).symm⟩
  | cons x xs ih => exact (appends_pushBack x).andThen ih

theorem appends_appendOscString (s : List Byte) :
    Appends (fun out : SmallVector Byte cap => appendOscString out s) (oscString s) where
  ok_iff out := by
    have hfits := out.fits
    rw [length_oscString_padded, paddedLen, appendOscString]
    split
    · simp only [Bool.false_eq_true, false_iff]
      omega
    · simp only [true_iff]
      omega
  items _ := items_appendOscString

theorem appends_appendU32Be (v : BitVec 32) :
    Appends (fun out : SmallVector Byte cap => appendU32Be out v) (beBytes v) where
  ok_iff out := (appends_append _).ok_iff out
  items _ := items_appendU32Be

theorem appends_encodeArg {a : Arg} (ha : a.Known) :
    Appends (fun out : SmallVector Byte cap => encodeArg out a) a.bytes where
  ok_iff out := by
    unfold encodeArg Arg.bytes
    by_cases hi : a.tag = tagInt
    · rw [if_pos hi, if_pos hi]
      exact (appends_appendU32Be a.i).ok_iff out
    · rw [if_neg hi, if_neg hi]
      by_cases hf : a.tag = tagFloat
      · rw [if_pos hf, if_pos hf]
        exact (appends_appendU32Be a.f).ok_iff out
      · have hs : a.tag = tagString := (ha.resolve_left hi).resolve_left hf
        rw [if_neg hf, if_neg hf, if_pos hs]
        exact (appends_appendOscString a.s).ok_iff out
  items _ := items_encodeArg

theorem appends_encodeArgs {args : List Arg} (hargs : ∀ a ∈ args, a.Known) :
    Appends (fun out : SmallVector Byte cap => encodeArgs out args) (args.map Arg.bytes).flatten := by
  induction args with
  | nil => exact ⟨fun v => by simp [encodeArgs, v.fits], fun v _ => (List.append_nil _).symm⟩
  | cons a args ih =>
      rw [List.forall_mem_cons] at hargs
      exact (appends_encodeArg hargs.1).andThen (ih hargs.2)

/-- An unknown tag fails. -/
theorem known_of_encodeArgs {out : SmallVector Byte cap} {args : List Arg}
    (h : (encodeArgs out args).1 = true) : ∀ a ∈ args, a.Known := by
  induction args generalizing out with
  | nil => exact List.forall_mem_nil _
  | cons a args ih =>
      rw [encodeArgs, andThen_fst_iff] at h
      have ha : a.Known := by
        by_contra hno
        simp only [Arg.Known, not_or] at hno
        rw [encodeArg, if_neg hno.1, if_neg hno.2.1, if_neg hno.2.2] at h
        exact absurd h.1 Bool.false_ne_true
      exact List.forall_mem_cons.mpr ⟨ha, ih h.2⟩

/-- `encode` succeeds exactly when it knows every tag and the whole message fits. -/
theorem encode_fst_iff (out : SmallVector Byte cap) (address : List Byte) (args : List Arg) :
    (encode out address args).1 = true ↔
      (∀ a ∈ args, a.Known) ∧ requiredLength address args ≤ cap := by
  -- address, comma, tags, padding and arguments, in the order of the code
  have hsteps (hknown : ∀ a ∈ args, a.Known) :=
    ((appends_appendOscString address).andThen <| (appends_pushBack 0x2C).andThen <|
      (appends_pushAll (args.map Arg.tag)).andThen <|
        (appends_pushAll (List.replicate (((args.length + 1) / 4 + 1) * 4 - (args.length + 1)) 0)
          ).andThen (appends_encodeArgs hknown)).ok_iff out.clear
  have hlen : (oscString address ++ ([0x2C] ++ (args.map Arg.tag ++
      (List.replicate (((args.length + 1) / 4 + 1) * 4 - (args.length + 1)) 0 ++
        (args.map Arg.bytes).flatten)))).length = requiredLength address args := by
    rw [← length_wireMessage, wireMessage]
    simp [oscString]
  constructor
  · intro h
    -- the argument loop was reached and went through, so it knew every tag
    have hknown : ∀ a ∈ args, a.Known := by
      rw [encode, andThen_fst_iff, andThen_fst_iff, andThen_fst_iff, andThen_fst_iff] at h
      exact known_of_encodeArgs h.2.2.2.2
    have hroom := (hsteps hknown).mp h
    rw [hlen] at hroom
    exact ⟨hknown, le_trans (Nat.le_add_left _ _) hroom⟩
  · rintro ⟨hknown, hroom⟩
    apply (hsteps hknown).mpr
    rw [hlen]
    exact le_trans (Nat.zero_add _).le hroom

end Succeeds

/-! ## The storage of a `small_vector` -/

/-- `data_` and `size_`. -/
structure RawVector (T : Type*) (cap : Nat) where
  data : Vector T cap
  size : Nat
  bound : size ≤ cap

namespace RawVector

variable {T : Type*} {cap : Nat}

/-- The valid entries. -/
def contents (v : RawVector T cap) : SmallVector T cap :=
  ⟨v.data.toList.take v.size, by
    rw [List.length_take]
    exact le_trans (Nat.min_le_left _ _) v.bound⟩

/-- `data_[i] = x`; a store outside the array has no result. -/
def store (data : Vector T cap) (i : Nat) (x : T) : Option (Vector T cap) :=
  if h : i < cap then some (data.set i x h) else none

/-- `data_[i + k] = src[k]` for each `k`. -/
def storeRun (data : Vector T cap) (i : Nat) : List T → Option (Vector T cap)
  | [] => some data
  | x :: xs => (store data i x).bind fun data => storeRun data (i + 1) xs

/-- `push_back`. -/
def pushBack (v : RawVector T cap) (x : T) : Option (Bool × RawVector T cap) :=
  if h : v.size = cap then some (false, v)
  else (store v.data v.size x).map fun data =>
    (true, ⟨data, v.size + 1, by
      have := v.bound
      omega⟩)

/-- `append`. -/
def append (v : RawVector T cap) (src : List T) : Option (Bool × RawVector T cap) :=
  if h : src.length > cap - v.size then some (false, v)
  else (storeRun v.data v.size src).map fun data =>
    (true, ⟨data, v.size + src.length, by
      have := v.bound
      omega⟩)

/-- `clear`. -/
def clear (v : RawVector T cap) : RawVector T cap := ⟨v.data, 0, Nat.zero_le _⟩

/-- `if (!step) return false;` followed by the rest of the function. -/
def andThen (r : Option (Bool × RawVector T cap))
    (k : RawVector T cap → Option (Bool × RawVector T cap)) : Option (Bool × RawVector T cap) :=
  r.bind fun (ok, v) => if ok then k v else some (false, v)

/-- `push_back` of each element, stopping at the first that does not fit. -/
def pushAll (v : RawVector T cap) : List T → Option (Bool × RawVector T cap)
  | [] => some (true, v)
  | x :: xs => andThen (v.pushBack x) fun v => v.pushAll xs

/-- `n` times `push_back(x)`, results ignored. -/
def pushCopies (v : RawVector T cap) (x : T) : Nat → Option (RawVector T cap)
  | 0 => some v
  | n + 1 => (v.pushBack x).bind fun r => r.2.pushCopies x n

/-- `append_osc_string`. -/
def appendOscString (out : RawVector Byte cap) (s : List Byte) :
    Option (Bool × RawVector Byte cap) :=
  let padded := (s.length / 4 + 1) * 4
  if padded > cap - out.size then some (false, out)
  else (out.append s).bind fun r =>
    (r.2.pushCopies 0 (padded - s.length)).map fun v => (true, v)

/-- `append_u32_be`. -/
def appendU32Be (out : RawVector Byte cap) (v : BitVec 32) : Option (Bool × RawVector Byte cap) :=
  out.append [((v >>> 24) &&& 0xFF#32).setWidth 8, ((v >>> 16) &&& 0xFF#32).setWidth 8,
    ((v >>> 8) &&& 0xFF#32).setWidth 8, (v &&& 0xFF#32).setWidth 8]

/-- The body of the argument loop of `encode`. -/
def encodeArg (out : RawVector Byte cap) (a : Arg) : Option (Bool × RawVector Byte cap) :=
  if a.tag = tagInt then out.appendU32Be a.i
  else if a.tag = tagFloat then out.appendU32Be a.f
  else if a.tag = tagString then out.appendOscString a.s
  else some (false, out)

/-- The argument loop of `encode`. -/
def encodeArgs (out : RawVector Byte cap) : List Arg → Option (Bool × RawVector Byte cap)
  | [] => some (true, out)
  | a :: args => andThen (out.encodeArg a) fun out => out.encodeArgs args

/-- `encode`. -/
def encode (out : RawVector Byte cap) (address : List Byte) (args : List Arg) :
    Option (Bool × RawVector Byte cap) :=
  let tagsLen := args.length + 1
  let tagsPadded := (tagsLen / 4 + 1) * 4
  andThen (out.clear.appendOscString address) fun out =>
    andThen (out.pushBack 0x2C) fun out =>
      andThen (out.pushAll (args.map Arg.tag)) fun out =>
        andThen (out.pushAll (List.replicate (tagsPadded - tagsLen) 0)) fun out =>
          out.encodeArgs args

/-! ## The storage holds what the vector holds -/

/-- No store went outside, and the flag and the valid entries are those of the
    bounded sequence. -/
def Refines (r : Option (Bool × RawVector T cap)) (a : Bool × SmallVector T cap) : Prop :=
  ∃ v, r = some (a.1, v) ∧ v.contents = a.2

theorem contents_ext {v w : SmallVector T cap} (h : v.items = w.items) : v = w := by
  cases v
  cases w
  cases h
  rfl

theorem length_contents (v : RawVector T cap) : v.contents.items.length = v.size := by
  show (v.data.toList.take v.size).length = v.size
  have hbound := v.bound
  rw [List.length_take, Vector.length_toList]
  omega

/-- A run that fits is stored behind what is there, inside the array. -/
theorem storeRun_spec (data : Vector T cap) (i : Nat) (src : List T) (h : i + src.length ≤ cap) :
    ∃ data', storeRun data i src = some data' ∧
      data'.toList.take (i + src.length) = data.toList.take i ++ src := by
  induction src generalizing data i with
  | nil => exact ⟨data, rfl, by simp⟩
  | cons x xs ih =>
      rw [List.length_cons] at h
      have hi : i < cap := by omega
      -- one store, then the rest of the run into the array with that entry set
      obtain ⟨data', hrun, htake⟩ := ih (data.set i x hi) (i + 1) (by omega)
      refine ⟨data', ?_, ?_⟩
      · rw [storeRun, store, dif_pos hi]
        exact hrun
      · have hset : (data.set i x hi).toList.take (i + 1) = data.toList.take i ++ [x] := by
          rw [Vector.toList_set, List.take_add_one, List.take_set_of_le le_rfl]
          simp [hi]
        rw [List.length_cons, show i + (xs.length + 1) = i + 1 + xs.length by omega, htake, hset,
          List.append_assoc]
        rfl

theorem refines_append (v : RawVector T cap) (src : List T) :
    Refines (v.append src) (v.contents.append src) := by
  have hbound := v.bound
  have hlen := length_contents v
  unfold append SmallVector.append
  by_cases hroom : src.length > cap - v.size
  · rw [dif_pos hroom, dif_pos (by omega)]
    exact ⟨v, rfl, rfl⟩
  · rw [dif_neg hroom, dif_neg (by omega)]
    obtain ⟨data, hrun, htake⟩ := storeRun_spec v.data v.size src (by omega)
    rw [hrun]
    exact ⟨_, rfl, contents_ext htake⟩

theorem refines_pushBack (v : RawVector T cap) (x : T) :
    Refines (v.pushBack x) (v.contents.pushBack x) := by
  have hbound := v.bound
  have hlen := length_contents v
  unfold pushBack SmallVector.pushBack
  by_cases hfull : v.size = cap
  · rw [dif_pos hfull, dif_pos (by omega)]
    exact ⟨v, rfl, rfl⟩
  · rw [dif_neg hfull, dif_neg (by omega)]
    -- one store is a run of length one
    have hone : v.size + [x].length ≤ cap := by
      rw [List.length_singleton]
      omega
    obtain ⟨data, hrun, htake⟩ := storeRun_spec v.data v.size [x] hone
    have hstore : store v.data v.size x = some data := by
      rw [storeRun] at hrun
      cases hs : store v.data v.size x with
      | none => rw [hs] at hrun; cases hrun
      | some data' => rw [hs] at hrun; exact hrun
    rw [hstore]
    exact ⟨_, rfl, contents_ext htake⟩

/-- Sequencing keeps the two in step. -/
theorem Refines.andThen {r : Option (Bool × RawVector T cap)} {a : Bool × SmallVector T cap}
    {k : RawVector T cap → Option (Bool × RawVector T cap)}
    {k' : SmallVector T cap → Bool × SmallVector T cap} (hr : Refines r a)
    (hk : ∀ v, Refines (k v) (k' v.contents)) :
    Refines (RawVector.andThen r k) (SmallVector.andThen a k') := by
  obtain ⟨v, rfl, hv⟩ := hr
  obtain ⟨ok, w⟩ := a
  cases ok with
  | false => exact ⟨v, rfl, hv⟩
  | true =>
      have hrest := hk v
      rw [hv] at hrest
      exact hrest

theorem refines_pushAll (v : RawVector T cap) (xs : List T) :
    Refines (v.pushAll xs) (v.contents.pushAll xs) := by
  induction xs generalizing v with
  | nil => exact ⟨v, rfl, rfl⟩
  | cons x xs ih => exact (refines_pushBack v x).andThen fun v => ih v

theorem pushCopies_contents (v : RawVector T cap) (x : T) (n : Nat) :
    ∃ w, v.pushCopies x n = some w ∧ w.contents = v.contents.pushCopies x n := by
  induction n generalizing v with
  | zero => exact ⟨v, rfl, rfl⟩
  | succ n ih =>
      obtain ⟨w, hpush, hw⟩ := refines_pushBack v x
      obtain ⟨w', hrest, hw'⟩ := ih w
      refine ⟨w', ?_, ?_⟩
      · rw [pushCopies, hpush]
        exact hrest
      · rw [hw', hw]
        rfl

theorem refines_appendOscString (out : RawVector Byte cap) (s : List Byte) :
    Refines (out.appendOscString s) (Osc.appendOscString out.contents s) := by
  unfold appendOscString Osc.appendOscString
  rw [length_contents]
  by_cases hroom : (s.length / 4 + 1) * 4 > cap - out.size
  · simp only [if_pos hroom]
    exact ⟨out, rfl, rfl⟩
  · simp only [if_neg hroom]
    -- the room was checked for all of it, so both results may be ignored
    obtain ⟨w, happ, hw⟩ := refines_append out s
    obtain ⟨w', hcopies, hw'⟩ := pushCopies_contents w 0 ((s.length / 4 + 1) * 4 - s.length)
    refine ⟨w', ?_, ?_⟩
    · rw [happ]
      show (w.pushCopies 0 _).map _ = _
      rw [hcopies]
      rfl
    · rw [hw', hw]

theorem refines_encodeArg (out : RawVector Byte cap) (a : Arg) :
    Refines (out.encodeArg a) (Osc.encodeArg out.contents a) := by
  unfold encodeArg Osc.encodeArg
  split
  · exact refines_append out _
  · split
    · exact refines_append out _
    · split
      · exact refines_appendOscString out a.s
      · exact ⟨out, rfl, rfl⟩

theorem refines_encodeArgs (out : RawVector Byte cap) (args : List Arg) :
    Refines (out.encodeArgs args) (Osc.encodeArgs out.contents args) := by
  induction args generalizing out with
  | nil => exact ⟨out, rfl, rfl⟩
  | cons a args ih => exact (refines_encodeArg out a).andThen fun v => ih v

theorem refines_encode (out : RawVector Byte cap) (address : List Byte) (args : List Arg) :
    Refines (out.encode address args) (Osc.encode out.contents address args) := by
  have hclear : out.clear.contents = out.contents.clear := contents_ext rfl
  unfold encode Osc.encode
  rw [← hclear]
  apply (refines_appendOscString out.clear address).andThen
  intro v
  apply (refines_pushBack v 0x2C).andThen
  intro v
  apply (refines_pushAll v _).andThen
  intro v
  apply (refines_pushAll v _).andThen
  intro v
  exact refines_encodeArgs v args

end RawVector

/-- For every capacity and whatever the buffer held: `encode` stores nothing outside
    it; it returns true exactly when it knows every tag and the required length is at
    most the capacity; and then the buffer holds the message, of that length, a
    multiple of four. -/
theorem encode_succeeds_iff_fits {cap : Nat} (out : RawVector Byte cap) (address : List Byte)
    (args : List Arg) :
    ∃ ok v, out.encode address args = some (ok, v) ∧
      (ok = true ↔ (∀ a ∈ args, a.tag = tagInt ∨ a.tag = tagFloat ∨ a.tag = tagString) ∧
        requiredLength address args ≤ cap) ∧
      (ok = true → v.size = requiredLength address args ∧ 4 ∣ v.size ∧
        v.data.toList.take v.size = wireMessage address args) := by
  obtain ⟨v, henc, hv⟩ := RawVector.refines_encode out address args
  refine ⟨_, v, henc, encode_fst_iff _ address args, fun hok => ?_⟩
  have hitems : v.contents.items = wireMessage address args := by
    rw [hv, items_encode hok, wireMessage]
  have hsize : v.size = requiredLength address args := by
    rw [← RawVector.length_contents, hitems, length_wireMessage]
  refine ⟨hsize, ?_, hitems⟩
  rw [hsize]
  exact four_dvd_requiredLength address args

/-! ## `build_osc_string_msg` -/

/-- `memcpy(pkt.data() + pos, src, n)`. -/
def copyAt (pkt : List Byte) (pos : Nat) (src : List Byte) : List Byte :=
  pkt.take pos ++ src ++ pkt.drop (pos + src.length)

/-- `build_osc_string_msg`, store by store; `addr` is the character array from the
    pointer on. -/
def buildOscStringMsgAt (addr payload : List Byte) : List Byte :=
  let addrLen := strnlen addr + 1
  let addrPadded := pad4 addrLen
  let tagsPadded := 4
  let strPadded := pad4 (payload.length + 1)
  let pkt := List.replicate (addrPadded + tagsPadded + strPadded) 0
  let pkt := copyAt pkt 0 (addr.take addrLen)
  let pos := addrPadded
  -- the two NULs of the tag string are there already
  let pkt := (pkt.set pos 0x2C).set (pos + 1) 0x73
  copyAt pkt (pos + tagsPadded) (payload ++ [0])

/-- Copying a terminated string over zeros leaves it padded with zeros. -/
theorem copyAt_zeros (front s : List Byte) (rest : Nat) :
    copyAt (front ++ List.replicate (paddedLen s.length + rest) 0) front.length (s ++ [0]) =
      front ++ oscString s ++ List.replicate rest 0 := by
  have hlt : s.length < paddedLen s.length := by
    unfold paddedLen
    omega
  -- the terminator and the zeros behind the copy are the padding and the rest
  have hzeros : [(0 : Byte)] ++ List.replicate (paddedLen s.length + rest - (s.length + 1)) 0 =
      List.replicate (paddedLen s.length - s.length) 0 ++ List.replicate rest 0 := by
    rw [List.replicate_append_replicate, List.singleton_append, ← List.replicate_succ]
    congr 1
    omega
  calc copyAt (front ++ List.replicate (paddedLen s.length + rest) 0) front.length (s ++ [0])
      = front ++ (s ++ [0]) ++ List.replicate (paddedLen s.length + rest - (s.length + 1)) 0 := by
        rw [copyAt, List.take_left, List.length_append, List.length_singleton,
          List.drop_length_add_append, List.drop_replicate]
    _ = front ++ (s ++ ([0] ++ List.replicate (paddedLen s.length + rest - (s.length + 1)) 0)) := by
        simp only [List.append_assoc]
    _ = front ++ oscString s ++ List.replicate rest 0 := by
        rw [hzeros, oscString, ← paddedLen]
        simp only [List.append_assoc]

/-- The packet is the padded address, the tag string and the padded payload. -/
theorem buildOscStringMsgAt_eq {addr : List Byte} (haddr : 0 ∉ addr) (payload : List Byte) :
    buildOscStringMsgAt (addr ++ [0]) payload =
      oscString addr ++ [0x2C, 0x73, 0, 0] ++ oscString payload := by
  have hlen : strnlen (addr ++ [0]) = addr.length := by
    have h : strnlen (addr ++ ([0] ++ [])) = addr.length := strnlen_append haddr rfl []
    rwa [List.append_nil] at h
  have htake : (addr ++ [0]).take (addr.length + 1) = addr ++ [0] :=
    List.take_of_length_le (by simp)
  -- the three stores in turn: address, tags, payload
  have haddrCopied : copyAt (List.replicate
        (paddedLen addr.length + 4 + paddedLen payload.length) 0) 0 (addr ++ [0]) =
      oscString addr ++ (0 :: 0 :: 0 :: 0 :: List.replicate (paddedLen payload.length) 0) := by
    have h := copyAt_zeros [] addr (4 + paddedLen payload.length)
    rw [← Nat.add_assoc, List.replicate_add 4] at h
    exact h
  have htags : ∀ tail : List Byte,
      ((oscString addr ++ (0 :: 0 :: 0 :: 0 :: tail)).set (paddedLen addr.length) 0x2C).set
          (paddedLen addr.length + 1) 0x73 =
        oscString addr ++ [0x2C, 0x73, 0, 0] ++ tail := by
    intro tail
    rw [← length_oscString_padded, List.set_append_right _ _ le_rfl,
      List.set_append_right _ _ (Nat.le_add_right _ 1), Nat.sub_self, Nat.add_sub_cancel_left]
    simp
  have hpayload := copyAt_zeros (oscString addr ++ [0x2C, 0x73, 0, 0]) payload 0
  rw [List.length_append, length_oscString_padded, Nat.add_zero, List.replicate_zero,
    List.append_nil] at hpayload
  rw [buildOscStringMsgAt, hlen, htake, pad4_succ, pad4_succ, ← paddedLen, ← paddedLen,
    haddrCopied, htags]
  exact hpayload

/-- The layout used for the answer of `/nous/endpoints` is that packet. -/
theorem buildOscStringMsgAt_eq_layout {addr : List Byte} (haddr : 0 ∉ addr)
    (payload : List Byte) :
    buildOscStringMsgAt (addr ++ [0]) payload = buildOscStringMsg addr payload := by
  rw [buildOscStringMsgAt_eq haddr, buildOscStringMsg, oscString, oscString, pad4_succ, pad4_succ]
  simp only [List.append_assoc]

/-- One string argument on the wire. -/
theorem wireMessage_string (addr payload : List Byte) :
    wireMessage addr [.makeS payload] =
      oscString addr ++ [0x2C, 0x73, 0, 0] ++ oscString payload := by
  have htags : oscString (0x2C :: [Arg.makeS payload].map Arg.tag) = [0x2C, 0x73, 0, 0] := by
    show oscString [0x2C, tagString] = _
    decide
  have hargs : ([Arg.makeS payload].map Arg.bytes).flatten = oscString payload := by
    rw [List.map_singleton, List.flatten_singleton]
    rfl
  rw [wireMessage, htags, hargs, List.append_assoc]

/-- The two string encoders agree: a buffer that can hold what `build_osc_string_msg`
    builds makes `encode` succeed with the same bytes. -/
theorem osc_string_encoders_agree {cap : Nat} (out : RawVector Byte cap) (addr payload : List Byte)
    (haddr : 0 ∉ addr) (hroom : (buildOscStringMsgAt (addr ++ [0]) payload).length ≤ cap) :
    ∃ v, out.encode addr [.makeS payload] = some (true, v) ∧
      v.data.toList.take v.size = buildOscStringMsgAt (addr ++ [0]) payload := by
  have hwire : buildOscStringMsgAt (addr ++ [0]) payload = wireMessage addr [.makeS payload] := by
    rw [buildOscStringMsgAt_eq haddr, wireMessage_string]
  rw [hwire, length_wireMessage] at hroom
  have hknown : ∀ a ∈ [Arg.makeS payload], a.Known := by
    intro a ha
    rw [List.mem_singleton] at ha
    rw [ha]
    exact Or.inr (Or.inr rfl)
  obtain ⟨v, henc, hv⟩ := RawVector.refines_encode out addr [.makeS payload]
  have hok := (encode_fst_iff out.contents addr [.makeS payload]).mpr ⟨hknown, hroom⟩
  rw [hok] at henc
  refine ⟨v, henc, ?_⟩
  show v.contents.items = _
  rw [hv, items_encode hok, hwire, wireMessage]

/-- A list of two endpoints, into a buffer that held something else: thirteen bytes and three
    zeros. -/
theorem osc_string_encoders_agree_endpoints :
    ∃ v, (⟨Vector.replicate 64 0xFF, 12, by decide⟩ : RawVector Byte 64).encode
        (ascii "/nous/endpoints") [.makeS (ascii "/beat\n/tempo\n")] = some (true, v) ∧
      v.data.toList.take v.size = ascii "/nous/endpoints" ++ [0] ++ ascii ",s" ++ [0, 0] ++
        ascii "/beat\n/tempo\n" ++ [0, 0, 0] := by
  obtain ⟨v, hencode, hbytes⟩ := osc_string_encoders_agree
    (⟨Vector.replicate 64 0xFF, 12, by decide⟩ : RawVector Byte 64) (ascii "/nous/endpoints")
    (ascii "/beat\n/tempo\n") (by decide) (by decide)
  exact ⟨v, hencode, hbytes.trans (by decide)⟩

end NomosRt.Osc
