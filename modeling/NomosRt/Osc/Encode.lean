/-
  NomosRt.Osc.Encode

  `small_vector` and the OSC encoder built on it.

  Floats are their 32-bit patterns: the encoder copies the pattern and never
  computes with it.
-/

import NomosRt.Lib.CString

namespace NomosRt.Osc

open NomosRt.Lib

/-! ## `small_vector` -/

/-- A bounded sequence of capacity `cap`. -/
structure SmallVector (T : Type*) (cap : Nat) where
  items : List T
  fits : items.length ≤ cap

namespace SmallVector

variable {T : Type*} {cap : Nat}

/-- `push_back`: false without effect when full. -/
def pushBack (v : SmallVector T cap) (x : T) : Bool × SmallVector T cap :=
  if h : v.items.length = cap then (false, v)
  else (true, ⟨v.items ++ [x], by
    have := v.fits
    rw [List.length_append, List.length_singleton]
    omega⟩)

/-- `append`: all or nothing. -/
def append (v : SmallVector T cap) (src : List T) : Bool × SmallVector T cap :=
  if h : src.length > cap - v.items.length then (false, v)
  else (true, ⟨v.items ++ src, by
    have := v.fits
    rw [List.length_append]
    omega⟩)

/-- `clear`. -/
def clear (_ : SmallVector T cap) : SmallVector T cap := ⟨[], Nat.zero_le _⟩

/-- `if (!step) return false;` followed by the rest of the function. -/
def andThen (r : Bool × SmallVector T cap)
    (k : SmallVector T cap → Bool × SmallVector T cap) : Bool × SmallVector T cap :=
  if r.1 then k r.2 else r

/-- `push_back` of each element, stopping at the first that does not fit. -/
def pushAll (v : SmallVector T cap) : List T → Bool × SmallVector T cap
  | [] => (true, v)
  | x :: xs => andThen (v.pushBack x) fun v => v.pushAll xs

/-- `n` times `push_back(x)`, results ignored. -/
def pushCopies (v : SmallVector T cap) (x : T) : Nat → SmallVector T cap
  | 0 => v
  | n + 1 => (v.pushBack x).2.pushCopies x n

/-- A function that returned true took none of its early returns. -/
theorem andThen_ok {r : Bool × SmallVector T cap}
    {k : SmallVector T cap → Bool × SmallVector T cap} (h : (andThen r k).1 = true) :
    r.1 = true ∧ (k r.2).1 = true ∧ andThen r k = k r.2 := by
  unfold andThen at h ⊢
  split at h
  · rename_i hr
    exact ⟨hr, h, if_pos hr⟩
  · rename_i hr
    exact absurd h hr

theorem items_pushBack (v : SmallVector T cap) (x : T) (h : (v.pushBack x).1 = true) :
    (v.pushBack x).2.items = v.items ++ [x] := by
  rw [pushBack] at h ⊢
  split at h
  · cases h
  · rename_i hroom
    rw [dif_neg hroom]

theorem items_append (v : SmallVector T cap) (src : List T) (h : (v.append src).1 = true) :
    (v.append src).2.items = v.items ++ src := by
  rw [append] at h ⊢
  split at h
  · cases h
  · rename_i hfits
    rw [dif_neg hfits]

/-- A push loop that returns true appended everything. -/
theorem items_pushAll (v : SmallVector T cap) (xs : List T) (h : (v.pushAll xs).1 = true) :
    (v.pushAll xs).2.items = v.items ++ xs := by
  induction xs generalizing v with
  | nil => simp [pushAll]
  | cons x xs ih =>
      rw [pushAll] at h ⊢
      obtain ⟨hpush, hrest, heq⟩ := andThen_ok h
      rw [heq, ih _ hrest, items_pushBack v x hpush, List.append_assoc]
      rfl

/-- Copies that fit are all appended. -/
theorem items_pushCopies (v : SmallVector T cap) (x : T) {n : Nat}
    (h : v.items.length + n ≤ cap) :
    (v.pushCopies x n).items = v.items ++ List.replicate n x := by
  induction n generalizing v with
  | zero => simp [pushCopies]
  | succ n ih =>
      have hroom : (v.pushBack x).1 = true := by rw [pushBack, dif_neg (by omega)]
      have hitems := items_pushBack v x hroom
      rw [pushCopies, ih, hitems, List.append_assoc, List.replicate_succ]
      · rfl
      · rw [hitems, List.length_append, List.length_singleton]
        omega

end SmallVector

/-! ## Arguments -/

/-- One OSC argument: the field its tag names is the one that counts. -/
structure Arg where
  tag : Byte
  i : BitVec 32
  f : BitVec 32
  s : List Byte
  deriving DecidableEq, Repr

def tagInt : Byte := 0x69
def tagFloat : Byte := 0x66
def tagString : Byte := 0x73

/-- `make_i`. -/
def Arg.makeI (v : BitVec 32) : Arg := ⟨tagInt, v, 0, []⟩

/-- `make_f`. -/
def Arg.makeF (v : BitVec 32) : Arg := ⟨tagFloat, 0, v, []⟩

/-- `make_s`. -/
def Arg.makeS (v : List Byte) : Arg := ⟨tagString, 0, 0, v⟩

/-! ## The encoder -/

section Encoder

open SmallVector

variable {cap : Nat}

/-- `append_osc_string`. -/
def appendOscString (out : SmallVector Byte cap) (s : List Byte) :
    Bool × SmallVector Byte cap :=
  let padded := (s.length / 4 + 1) * 4
  if padded > cap - out.items.length then (false, out)
  else (true, (out.append s).2.pushCopies 0 (padded - s.length))

/-- `append_u32_be`. -/
def appendU32Be (out : SmallVector Byte cap) (v : BitVec 32) : Bool × SmallVector Byte cap :=
  out.append [((v >>> 24) &&& 0xFF#32).setWidth 8, ((v >>> 16) &&& 0xFF#32).setWidth 8,
    ((v >>> 8) &&& 0xFF#32).setWidth 8, (v &&& 0xFF#32).setWidth 8]

/-- The body of the argument loop of `encode`. -/
def encodeArg (out : SmallVector Byte cap) (a : Arg) : Bool × SmallVector Byte cap :=
  if a.tag = tagInt then appendU32Be out a.i
  else if a.tag = tagFloat then appendU32Be out a.f
  else if a.tag = tagString then appendOscString out a.s
  else (false, out)

/-- The argument loop of `encode`. -/
def encodeArgs (out : SmallVector Byte cap) : List Arg → Bool × SmallVector Byte cap
  | [] => (true, out)
  | a :: args => andThen (encodeArg out a) fun out => encodeArgs out args

/-- `encode`. -/
def encode (out : SmallVector Byte cap) (address : List Byte) (args : List Arg) :
    Bool × SmallVector Byte cap :=
  let tagsLen := args.length + 1
  let tagsPadded := (tagsLen / 4 + 1) * 4
  andThen (appendOscString out.clear address) fun out =>
    andThen (out.pushBack 0x2C) fun out =>
      andThen (out.pushAll (args.map Arg.tag)) fun out =>
        andThen (out.pushAll (List.replicate (tagsPadded - tagsLen) 0)) fun out =>
          encodeArgs out args

/-! ## The wire layout -/

/-- A string with its terminator and padding. -/
def oscString (s : List Byte) : List Byte :=
  s ++ List.replicate ((s.length / 4 + 1) * 4 - s.length) 0

/-- The bytes of one argument. -/
def Arg.bytes (a : Arg) : List Byte :=
  if a.tag = tagInt then beBytes a.i
  else if a.tag = tagFloat then beBytes a.f
  else oscString a.s

theorem length_oscString (s : List Byte) : (oscString s).length = pad4 (s.length + 1) := by
  rw [oscString, List.length_append, List.length_replicate, pad4_succ]
  omega

theorem items_appendOscString {out : SmallVector Byte cap} {s : List Byte}
    (h : (appendOscString out s).1 = true) :
    (appendOscString out s).2.items = out.items ++ oscString s := by
  unfold appendOscString at h ⊢
  simp only at h ⊢
  split at h
  · cases h
  · rename_i hfits
    have hout := out.fits
    rw [if_neg hfits]
    have happ : (out.append s).1 = true := by
      rw [SmallVector.append, dif_neg (by omega)]
    have hitems := SmallVector.items_append out s happ
    show (SmallVector.pushCopies _ _ _).items = _
    rw [SmallVector.items_pushCopies, hitems, oscString, List.append_assoc]
    rw [hitems, List.length_append]
    omega

theorem items_appendU32Be {out : SmallVector Byte cap} {v : BitVec 32}
    (h : (appendU32Be out v).1 = true) :
    (appendU32Be out v).2.items = out.items ++ beBytes v := by
  have hbytes : [((v >>> 24) &&& 0xFF#32).setWidth 8, ((v >>> 16) &&& 0xFF#32).setWidth 8,
      ((v >>> 8) &&& 0xFF#32).setWidth 8, (v &&& 0xFF#32).setWidth 8] = beBytes v := by
    rw [beBytes]
    congr 1 <;> [skip; congr 1 <;> [skip; congr 1 <;> [skip; congr 1]]] <;>
      (unfold byteOf
       apply BitVec.eq_of_getLsbD_eq
       intro i hi
       interval_cases i <;> simp)
  rw [appendU32Be] at h ⊢
  rw [SmallVector.items_append out _ h, hbytes]

theorem items_encodeArg {out : SmallVector Byte cap} {a : Arg}
    (h : (encodeArg out a).1 = true) : (encodeArg out a).2.items = out.items ++ a.bytes := by
  unfold encodeArg Arg.bytes at *
  split at h
  · rename_i hi
    rw [if_pos hi, if_pos hi]
    exact items_appendU32Be h
  · rename_i hi
    rw [if_neg hi, if_neg hi]
    split at h
    · rename_i hf
      rw [if_pos hf, if_pos hf]
      exact items_appendU32Be h
    · rename_i hf
      rw [if_neg hf, if_neg hf]
      split at h
      · rename_i hs
        rw [if_pos hs]
        exact items_appendOscString h
      · cases h

theorem items_encodeArgs {out : SmallVector Byte cap} {args : List Arg}
    (h : (encodeArgs out args).1 = true) :
    (encodeArgs out args).2.items = out.items ++ (args.map Arg.bytes).flatten := by
  induction args generalizing out with
  | nil => simp [encodeArgs]
  | cons a args ih =>
      rw [encodeArgs] at h ⊢
      obtain ⟨harg, hrest, heq⟩ := andThen_ok h
      rw [heq, ih hrest, items_encodeArg harg, List.map_cons, List.flatten_cons,
        List.append_assoc]

/-- A message that `encode` accepts is the padded address, the padded tag string
    and the arguments' bytes. -/
theorem items_encode {out : SmallVector Byte cap} {address : List Byte} {args : List Arg}
    (h : (encode out address args).1 = true) :
    (encode out address args).2.items =
      oscString address ++ (oscString (0x2C :: args.map Arg.tag) ++
        (args.map Arg.bytes).flatten) := by
  rw [encode] at h ⊢
  obtain ⟨haddr, h₁, heq₁⟩ := andThen_ok h
  obtain ⟨hcomma, h₂, heq₂⟩ := andThen_ok h₁
  obtain ⟨htags, h₃, heq₃⟩ := andThen_ok h₂
  obtain ⟨hpad, h₄, heq₄⟩ := andThen_ok h₃
  rw [heq₁, heq₂, heq₃, heq₄, items_encodeArgs h₄, items_pushAll _ _ hpad,
    items_pushAll _ _ htags, items_pushBack _ _ hcomma, items_appendOscString haddr]
  simp [clear, oscString]

end Encoder

end NomosRt.Osc
