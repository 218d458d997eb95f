/-
  NomosRt.Osc.Server

  The two OSC decoders: `osc_server::handle_packet`, which splits a datagram into
  address, type tags and argument bytes and routes it, and the argument loop of
  `luajit_participant::dispatch_osc`.

  They are written apart from the encoder and from each other, with other padding
  formulas and other end tests; the round trip at the end runs all three.

  A pointer into the datagram is the list of bytes from there on, so the
  forwarded `args` is a suffix of the datagram and `avail` counts it.
-/

import NomosRt.InputEvent
import NomosRt.Lib.CFloat
import NomosRt.Osc.Encode

namespace NomosRt.Osc

open NomosRt.Lib

/-- `memcpy` of four bytes into a word. -/
def loadWord : List Byte → BitVec 32
  | b0 :: b1 :: b2 :: b3 :: _ => wordOf b0 b1 b2 b3
  | _ => 0

/-! ## `osc_server::handle_packet` -/

section Server

variable {D : Type*} [CDouble D]

/-- `osc_int32`. -/
def oscInt32 (p : List Byte) : BitVec 32 := bswap32 (loadWord p)

/-- `osc_float`, by its bits. -/
def oscFloat (p : List Byte) : BitVec 32 := bswap32 (loadWord p)

/-- `build_osc_string_msg`. -/
def buildOscStringMsg (addr payload : List Byte) : List Byte :=
  let addrPadded := pad4 (addr.length + 1)
  let strPadded := pad4 (payload.length + 1)
  addr ++ List.replicate (addrPadded - addr.length) 0 ++ [0x2C, 0x73, 0, 0] ++
    payload ++ List.replicate (strPadded - payload.length) 0

/-- What the server has wired: whether `dispatch` is set, the text of
    `get_endpoints` when that is set, and whether a sender is known. -/
structure DispatchFns where
  dispatch : Bool
  getEndpoints : Option (List Byte)
  hasSender : Bool

/-- What `handle_packet` does with a datagram. -/
inductive PacketAction (D : Type*) where
  | ignore
  /-- `queue_.push(ev)`. -/
  | push (ev : ClapEvent D)
  /-- `send_udp` to the last sender. -/
  | send (pkt : List Byte)
  /-- `dispatch_fns_.dispatch(address, types, args, avail)`. -/
  | dispatch (address types args : List Byte) (avail : Nat)

/-- The routing part of `handle_packet`. -/
def route (fns : DispatchFns) (address types args : List Byte) (avail : Nat) : PacketAction D :=
  let word := fun k => oscInt32 (args.drop k)
  let int16 := fun k => (word k).setWidth 16
  if address = ascii "/nous/note/on" ∧ types = ascii "iiif" ∧ avail ≥ 16 then
    .push (.note true (-1) (int16 0) (int16 4) (int16 8)
      (CDouble.ofFloatBits (oscFloat (args.drop 12))))
  else if address = ascii "/nous/note/off" ∧ types = ascii "iii" ∧ avail ≥ 12 then
    .push (.note false (-1) (int16 0) (int16 4) (int16 8) (CDouble.ofInt 0))
  else if address = ascii "/nous/midi" ∧ types = ascii "iiii" ∧ avail ≥ 16 then
    .push (.midi (int16 0) ((word 4).setWidth 8) ((word 8).setWidth 8) ((word 12).setWidth 8))
  else if address = ascii "/nous/endpoints" then
    match fns.getEndpoints with
    | none => .ignore
    | some paths =>
        if fns.hasSender then .send (buildOscStringMsg (ascii "/nous/endpoints") paths)
        else .ignore
  else if fns.dispatch then .dispatch address types args avail
  else .ignore

/-- `handle_packet`. -/
def handlePacket (fns : DispatchFns) (buf : List Byte) : PacketAction D :=
  let len := buf.length
  if len < 8 then .ignore
  else
    let addrLen := strnlen buf
    if addrLen ≥ len then .ignore
    else
      let tagsOff := pad4 (addrLen + 1)
      if tagsOff ≥ len then .ignore
      else
        let tagsBuf := buf.drop tagsOff
        if tagsBuf.head? ≠ some 0x2C then .ignore
        else
          let tagsLen := strnlen tagsBuf
          let argsOff := tagsOff + pad4 (tagsLen + 1)
          let avail := if argsOff < len then len - argsOff else 0
          route fns (buf.take addrLen) ((tagsBuf.drop 1).take (tagsLen - 1))
            (buf.drop argsOff) avail

end Server

/-! ## `luajit_participant::dispatch_osc` -/

section Lua

variable {D : Type*} [CDouble D]

/-- `osc_read_i32`. -/
def oscReadI32 (p : List Byte) : BitVec 32 := swapMasked (loadWord p)

/-- `osc_read_f32`, by its bits. -/
def oscReadF32 (p : List Byte) : BitVec 32 := swapMasked (loadWord p)

/-- `osc_pad4`. -/
def oscPad4 (n : Nat) : Nat := pad4 n

/-- A value pushed for the handler: `lua_pushinteger`, `lua_pushnumber`,
    `lua_pushlstring`. -/
inductive LuaArg (D : Type*) where
  | integer (v : Int)
  | number (v : D)
  | string (s : List Byte)
  deriving DecidableEq, Repr

/-- The argument loop: the values pushed and the final `arg_off`. -/
def oscArgs (args : List Byte) (argsLen : Nat) : Nat → List Byte → List (LuaArg D) × Nat
  | argOff, [] => ([], argOff)
  | argOff, tag :: tags =>
      if tag = tagInt ∧ argOff + 4 ≤ argsLen then
        let (vals, stop) := oscArgs args argsLen (argOff + 4) tags
        (.integer (oscReadI32 (args.drop argOff)).toInt :: vals, stop)
      else if tag = tagFloat ∧ argOff + 4 ≤ argsLen then
        let (vals, stop) := oscArgs args argsLen (argOff + 4) tags
        (.number (CDouble.ofFloatBits (oscReadF32 (args.drop argOff))) :: vals, stop)
      else if tag = tagString ∧ argOff < argsLen then
        let s := (args.drop argOff).take (argsLen - argOff)
        let slen := strnlen s
        let (vals, stop) := oscArgs args argsLen (argOff + oscPad4 (slen + 1)) tags
        (.string (s.take slen) :: vals, stop)
      else oscArgs args argsLen argOff tags

/-- `dispatch_osc`: the return value and the call made.  `handlers` is `none`
    when there is no Lua state or no dispatch table, else the paths bound to a
    function. -/
def dispatchOsc (handlers : Option (List Byte → Bool)) (path types args : List Byte)
    (argsLen : Nat) : Bool × Option (List (LuaArg D)) :=
  match handlers with
  | none => (false, none)
  | some bound =>
      if bound path then (true, some (oscArgs args argsLen 0 types).1) else (false, none)

end Lua

/-! ## Decoding what was encoded -/

/-- The arguments a sender can make: any integer, any float, any NUL-free string. -/
inductive Arg.Sendable : Arg → Prop where
  | int (v : BitVec 32) : Sendable (.makeI v)
  | float (v : BitVec 32) : Sendable (.makeF v)
  | string (s : List Byte) (hs : 0 ∉ s) : Sendable (.makeS s)

/-- The addresses `handle_packet` routes itself. -/
def staticRoutes : List (List Byte) :=
  [ascii "/nous/note/on", ascii "/nous/note/off", ascii "/nous/midi", ascii "/nous/endpoints"]

section RoundTrip

variable {D : Type*} [CDouble D]

/-- The Lua value of an argument. -/
def Arg.value (a : Arg) : LuaArg D :=
  if a.tag = tagInt then .integer a.i.toInt
  else if a.tag = tagFloat then .number (CDouble.ofFloatBits a.f)
  else .string a.s

/-- The decoders' masked swap reads back a big-endian word. -/
theorem swapMasked_loadWord (v : BitVec 32) (rest : List Byte) :
    swapMasked (loadWord (beBytes v ++ rest)) = v := by
  show swapMasked (wordOf (byteOf v 3) (byteOf v 2) (byteOf v 1) (byteOf v 0)) = v
  rw [swapMasked_eq, bswap32_wordOf_be]

/-- The padding of a string starts with its terminator. -/
theorem head_padding (s : List Byte) :
    (List.replicate ((s.length / 4 + 1) * 4 - s.length) (0 : Byte)).head? = some 0 := by
  have hpos : (s.length / 4 + 1) * 4 - s.length ≠ 0 := by omega
  rw [List.head?_replicate, if_neg hpos]

/-- A padded string is measured up to its terminator. -/
theorem strnlen_oscString {s : List Byte} (hs : 0 ∉ s) (rest : List Byte) :
    strnlen (oscString s ++ rest) = s.length := by
  rw [oscString, List.append_assoc]
  exact strnlen_append hs (head_padding s) rest

theorem take_oscString (s rest : List Byte) : (oscString s ++ rest).take s.length = s := by
  rw [oscString, List.append_assoc, List.take_left]

/-- One round of the argument loop reads one encoded argument and stops right
    behind it. -/
theorem oscArgs_cons {a : Arg} (ha : a.Sendable) (tags front rest : List Byte) :
    oscArgs (D := D) (front ++ (a.bytes ++ rest)) (front ++ (a.bytes ++ rest)).length
        front.length (a.tag :: tags) =
      let tail := oscArgs (front ++ (a.bytes ++ rest)) (front ++ (a.bytes ++ rest)).length
        (front.length + a.bytes.length) tags
      (a.value :: tail.1, tail.2) := by
  have hlen : (front ++ (a.bytes ++ rest)).length =
      front.length + (a.bytes.length + rest.length) := by
    rw [List.length_append, List.length_append]
  cases ha with
  | int v =>
      have hbytes : (Arg.makeI v).bytes = beBytes v := rfl
      have hroom : front.length + 4 ≤ (front ++ ((Arg.makeI v).bytes ++ rest)).length := by
        rw [hlen, hbytes, length_beBytes]
        omega
      rw [oscArgs, if_pos ⟨rfl, hroom⟩, List.drop_left, hbytes, oscReadI32, swapMasked_loadWord]
      rfl
  | float v =>
      have hbytes : (Arg.makeF v).bytes = beBytes v := rfl
      have hroom : front.length + 4 ≤ (front ++ ((Arg.makeF v).bytes ++ rest)).length := by
        rw [hlen, hbytes, length_beBytes]
        omega
      rw [oscArgs, if_neg (by rintro ⟨h, -⟩; exact absurd h (by decide : ¬ tagFloat = tagInt)),
        if_pos ⟨rfl, hroom⟩, List.drop_left, hbytes, oscReadF32, swapMasked_loadWord]
      rfl
  | string s hs =>
      have hbytes : (Arg.makeS s).bytes = oscString s := rfl
      have hsize := length_oscString s
      have hlt := lt_pad4_succ s.length
      rw [hbytes] at hlen ⊢
      have hroom : front.length < (front ++ (oscString s ++ rest)).length := by
        rw [hlen, hsize]
        omega
      -- the rest of the buffer is all that `strnlen` may look at
      have hall : (oscString s ++ rest).take
          ((front ++ (oscString s ++ rest)).length - front.length) = oscString s ++ rest := by
        apply List.take_of_length_le
        rw [hlen, List.length_append]
        omega
      rw [oscArgs,
        if_neg (by rintro ⟨h, -⟩; exact absurd h (by decide : ¬ tagString = tagInt)),
        if_neg (by rintro ⟨h, -⟩; exact absurd h (by decide : ¬ tagString = tagFloat)),
        if_pos ⟨rfl, hroom⟩, List.drop_left, hall]
      simp only [strnlen_oscString hs, take_oscString, oscPad4, ← hsize]
      rfl

/-- The argument loop on encoded arguments gives their values and uses exactly
    the bytes there are. -/
theorem oscArgs_encoded {args : List Arg} (hargs : ∀ a ∈ args, a.Sendable)
    (front : List Byte) :
    oscArgs (D := D) (front ++ (args.map Arg.bytes).flatten)
        (front ++ (args.map Arg.bytes).flatten).length front.length (args.map Arg.tag) =
      (args.map Arg.value, (front ++ (args.map Arg.bytes).flatten).length) := by
  induction args generalizing front with
  | nil => simp [oscArgs]
  | cons a args ih =>
      have hrest := ih (fun b hb => hargs b (List.mem_cons_of_mem _ hb)) (front ++ a.bytes)
      have hfront : (front ++ a.bytes).length = front.length + a.bytes.length :=
        List.length_append
      rw [List.append_assoc, hfront] at hrest
      rw [List.map_cons, List.map_cons, List.map_cons, List.flatten_cons,
        oscArgs_cons (hargs a (List.mem_cons_self ..))]
      simp only [hrest]

/-- The type tags a sender can make hold no NUL. -/
theorem zero_notMem_tags {args : List Arg} (hargs : ∀ a ∈ args, a.Sendable) :
    (0 : Byte) ∉ args.map Arg.tag := by
  rw [List.mem_map]
  rintro ⟨a, ha, htag⟩
  cases hargs a ha with
  | int v => exact absurd htag (by decide : ¬ tagInt = 0)
  | float v => exact absurd htag (by decide : ¬ tagFloat = 0)
  | string s hs => exact absurd htag (by decide : ¬ tagString = 0)

/-- An address that is not one of the static routes falls through to `dispatch`. -/
theorem route_dispatch {fns : DispatchFns} (hfns : fns.dispatch = true) {address : List Byte}
    (hroute : address ∉ staticRoutes) (types args : List Byte) (avail : Nat) :
    route (D := D) fns address types args avail = .dispatch address types args avail := by
  simp only [staticRoutes, List.mem_cons, List.not_mem_nil, or_false, not_or] at hroute
  obtain ⟨hon, hoff, hmidi, hend⟩ := hroute
  rw [route, if_neg (fun h => hon h.1), if_neg (fun h => hoff h.1), if_neg (fun h => hmidi h.1),
    if_neg hend, if_pos hfns]

/-- `handle_packet` takes a padded address, a padded tag string and whatever
    follows apart again. -/
theorem handlePacket_layout {fns : DispatchFns} {address tags : List Byte} (haddr : 0 ∉ address)
    (htags : 0 ∉ tags) (body : List Byte) :
    handlePacket (D := D) fns (oscString address ++ (oscString (0x2C :: tags) ++ body)) =
      route fns address tags body body.length := by
  have hcomma : (0 : Byte) ∉ (0x2C : Byte) :: tags := by
    rw [List.mem_cons, not_or]
    exact ⟨by decide, htags⟩
  have hsize := length_oscString address
  have htsize := length_oscString (0x2C :: tags)
  have hlt := lt_pad4_succ address.length
  have htlt := lt_pad4_succ (0x2C :: tags).length
  have hlen : (oscString address ++ (oscString (0x2C :: tags) ++ body)).length =
      pad4 (address.length + 1) + (pad4 ((0x2C :: tags).length + 1) + body.length) := by
    rw [List.length_append, List.length_append, hsize, htsize]
  -- both strings end on a multiple of four, which is where `handle_packet` goes on
  have hmul : ∀ n, pad4 (n + 1) % 4 = 0 := by
    intro n
    unfold pad4
    omega
  have h4a := hmul address.length
  have h4t := hmul (0x2C :: tags).length
  unfold handlePacket
  simp only [strnlen_oscString haddr, take_oscString]
  rw [if_neg (by omega), if_neg (by omega), if_neg (by omega)]
  rw [← hsize, List.drop_left, strnlen_oscString hcomma]
  have hhead : (oscString (0x2C :: tags) ++ body).head? = some 0x2C := rfl
  have htypes : ((oscString (0x2C :: tags) ++ body).drop 1).take ((0x2C :: tags).length - 1) =
      tags := by
    show ((tags ++ _) ++ body).take tags.length = tags
    rw [List.append_assoc, List.take_left]
  have hbody : (oscString address ++ (oscString (0x2C :: tags) ++ body)).drop
      ((oscString address).length + pad4 ((0x2C :: tags).length + 1)) = body := by
    rw [← htsize, ← List.drop_drop, List.drop_left, List.drop_left]
  rw [if_neg (by rw [hhead]; exact fun h => h rfl), htypes, hbody]
  congr 1
  split
  · omega
  · omega

/-- Decoding undoes encoding: what `encode` accepts, `handle_packet` forwards
    with its address and type tags, and the argument loop reads the original
    values from the forwarded bytes and stops at their end. -/
theorem osc_decode_encode {cap : Nat} (out : SmallVector Byte cap) (address : List Byte)
    (args : List Arg) (fns : DispatchFns) (hfns : fns.dispatch = true) (haddr : 0 ∉ address)
    (hroute : address ∉ staticRoutes) (hargs : ∀ a ∈ args, a.Sendable)
    (henc : (encode out address args).1 = true) :
    ∃ (argBytes : List Byte) (avail : Nat),
      handlePacket (D := D) fns (encode out address args).2.items =
        .dispatch address (args.map Arg.tag) argBytes avail ∧
      oscArgs (D := D) argBytes avail 0 (args.map Arg.tag) = (args.map Arg.value, avail) := by
  refine ⟨(args.map Arg.bytes).flatten, (args.map Arg.bytes).flatten.length, ?_, ?_⟩
  · rw [items_encode henc, handlePacket_layout haddr (zero_notMem_tags hargs),
      route_dispatch hfns hroute]
  · exact oscArgs_encoded hargs []

end RoundTrip

/-- Doubles that stand for integers only, with the floats numbered by their bits:
    enough to run the decoders on. -/
@[reducible] def countingDouble : CDouble Int where
  ofInt := id
  add := (· + ·)
  div := (· / ·)
  ofFloatBits := BitVec.toInt
  toFloatBits := BitVec.ofInt 32

/-- A message with an integer, a negative float and an empty string, encoded into
    the buffer of an `osc_event`. -/
theorem osc_decode_encode_three :
    ∃ (argBytes : List Byte) (avail : Nat),
      @handlePacket Int countingDouble ⟨true, none, false⟩
          (encode (⟨[], by decide⟩ : SmallVector Byte 256) (ascii "/mix/1")
            [.makeI 7, .makeF 0xBF800000, .makeS []]).2.items =
        .dispatch (ascii "/mix/1") (ascii "ifs") argBytes avail ∧
      @oscArgs Int countingDouble argBytes avail 0 (ascii "ifs") =
        ([.integer 7, .number (-0x40800000), .string []], avail) := by
  have henc : (encode (⟨[], by decide⟩ : SmallVector Byte 256) (ascii "/mix/1")
      [.makeI 7, .makeF 0xBF800000, .makeS []]).1 = true := by decide
  have hargs : ∀ a ∈ [Arg.makeI 7, .makeF 0xBF800000, .makeS []], a.Sendable := by
    intro a ha
    simp only [List.mem_cons, List.not_mem_nil, or_false] at ha
    rcases ha with rfl | rfl | rfl
    · exact .int 7
    · exact .float 0xBF800000
    · exact .string [] (by decide)
  exact @osc_decode_encode Int countingDouble 256 ⟨[], by decide⟩ (ascii "/mix/1") _
    ⟨true, none, false⟩ rfl (by decide) (by decide) hargs henc

end NomosRt.Osc
