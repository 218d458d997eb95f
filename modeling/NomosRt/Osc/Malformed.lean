/-
  NomosRt.Osc.Malformed

  The OSC receive path on datagrams that are not well-formed.

  First memory safety: `handle_packet` and the argument loop are written again with
  every byte fetched through one accessor that has no result outside the datagram,
  and shown to compute what the models without it compute.  Offsets are rounded up
  and may lie beyond the end, but then nothing is read there.

  Then what the handler is given when arguments are missing.  A tag whose argument
  is not there is skipped rather than ending the loop, so what is left of a short
  number can still be read by a later string tag.
-/

import NomosRt.Osc.Server

namespace NomosRt.Osc

open NomosRt.Lib

/-! ## Reads -/

/-- The byte at offset `i`; there is none outside the buffer. -/
def readByte (buf : List Byte) (i : Nat) : Option Byte := buf[i]?

/-- The bytes at offsets `off`, ..., `off + n - 1`. -/
def readBytes (buf : List Byte) (off : Nat) : Nat → Option (List Byte)
  | 0 => some []
  | n + 1 =>
      (readByte buf off).bind fun b => (readBytes buf (off + 1) n).map fun bs => b :: bs

/-- `strnlen(buf + off, max)`, byte by byte up to the first NUL. -/
def scanNul (buf : List Byte) (off : Nat) : Nat → Option Nat
  | 0 => some 0
  | max + 1 =>
      (readByte buf off).bind fun b =>
        if b = 0 then some 0 else (scanNul buf (off + 1) max).map (· + 1)

/-- `memcpy` of four bytes into a word. -/
def readWord (buf : List Byte) (off : Nat) : Option (BitVec 32) :=
  (readBytes buf off 4).map loadWord

/-- `n - 1` on an unsigned length, which must not be 0. -/
def lengthPred : Nat → Option Nat
  | 0 => none
  | n + 1 => some n

theorem drop_eq_readByte {buf : List Byte} {off : Nat} (h : off < buf.length) :
    ∃ b, readByte buf off = some b ∧ buf.drop off = b :: buf.drop (off + 1) :=
  ⟨buf[off], List.getElem?_eq_getElem h, List.drop_eq_getElem_cons h⟩

theorem readBytes_eq {buf : List Byte} {off n : Nat} (h : off + n ≤ buf.length) :
    readBytes buf off n = some ((buf.drop off).take n) := by
  induction n generalizing off with
  | zero => rfl
  | succ n ih =>
      have hoff : off < buf.length := by omega
      obtain ⟨b, hb, hdrop⟩ := drop_eq_readByte hoff
      rw [readBytes, hb, hdrop, List.take_succ_cons]
      show (readBytes buf (off + 1) n).map _ = _
      rw [ih (by omega)]
      rfl

theorem scanNul_eq {buf : List Byte} {off n : Nat} (h : off + n ≤ buf.length) :
    scanNul buf off n = some (strnlen ((buf.drop off).take n)) := by
  induction n generalizing off with
  | zero => rfl
  | succ n ih =>
      have hoff : off < buf.length := by omega
      obtain ⟨b, hb, hdrop⟩ := drop_eq_readByte hoff
      rw [scanNul, hb, hdrop, List.take_succ_cons]
      show (if b = 0 then some 0 else (scanNul buf (off + 1) n).map (· + 1)) = _
      -- the scan ends at this byte or goes on behind it
      by_cases h0 : b = 0
      · rw [if_pos h0, strnlen, List.takeWhile_cons_of_neg (by simp [h0])]
        rfl
      · have hb0 : (b != 0) = true := bne_iff_ne.mpr h0
        rw [if_neg h0, ih (by omega), strnlen, strnlen, List.takeWhile_cons, if_pos hb0]
        rfl

/-- A word depends on the first four bytes only. -/
theorem loadWord_take {bytes : List Byte} {n : Nat} (hn : 4 ≤ n) :
    loadWord (bytes.take n) = loadWord bytes := by
  obtain ⟨k, rfl⟩ := Nat.exists_eq_add_of_le' hn
  rcases bytes with _ | ⟨b0, _ | ⟨b1, _ | ⟨b2, _ | ⟨b3, rest⟩⟩⟩⟩ <;> rfl

theorem readWord_eq {buf : List Byte} {off : Nat} (h : off + 4 ≤ buf.length) :
    readWord buf off = some (loadWord (buf.drop off)) := by
  rw [readWord, readBytes_eq h, Option.map_some, loadWord_take le_rfl]

/-! ## The receive path through the accessor -/

section Reads

variable {D : Type} [CDouble D]

/-- The routing part of `handle_packet`, reading its arguments from offset `off`. -/
def routeReads (fns : DispatchFns) (buf : List Byte) (off : Nat) (address types : List Byte)
    (avail : Nat) : Option (PacketAction D) :=
  if address = ascii "/nous/note/on" ∧ types = ascii "iiif" ∧ avail ≥ 16 then do
    let port ← readWord buf off
    let channel ← readWord buf (off + 4)
    let key ← readWord buf (off + 8)
    let velocity ← readWord buf (off + 12)
    return .push (.note true (-1) ((bswap32 port).setWidth 16) ((bswap32 channel).setWidth 16)
      ((bswap32 key).setWidth 16) (CDouble.ofFloatBits (bswap32 velocity)))
  else if address = ascii "/nous/note/off" ∧ types = ascii "iii" ∧ avail ≥ 12 then do
    let port ← readWord buf off
    let channel ← readWord buf (off + 4)
    let key ← readWord buf (off + 8)
    return .push (.note false (-1) ((bswap32 port).setWidth 16) ((bswap32 channel).setWidth 16)
      ((bswap32 key).setWidth 16) (CDouble.ofInt 0))
  else if address = ascii "/nous/midi" ∧ types = ascii "iiii" ∧ avail ≥ 16 then do
    let port ← readWord buf off
    let data0 ← readWord buf (off + 4)
    let data1 ← readWord buf (off + 8)
    let data2 ← readWord buf (off + 12)
    return .push (.midi ((bswap32 port).setWidth 16) ((bswap32 data0).setWidth 8)
      ((bswap32 data1).setWidth 8) ((bswap32 data2).setWidth 8))
  else if address = ascii "/nous/endpoints" then
    match fns.getEndpoints with
    | none => some .ignore
    | some paths =>
        if fns.hasSender then some (.send (buildOscStringMsg (ascii "/nous/endpoints") paths))
        else some .ignore
  else if fns.dispatch then some (.dispatch address types (buf.drop off) avail)
  else some .ignore

/-- `handle_packet`. -/
def handlePacketReads (fns : DispatchFns) (buf : List Byte) : Option (PacketAction D) :=
  let len := buf.length
  if len < 8 then some .ignore
  else do
    let addrLen ← scanNul buf 0 len
    if addrLen ≥ len then return .ignore
    let tagsOff := pad4 (addrLen + 1)
    if tagsOff ≥ len then return .ignore
    let comma ← readByte buf tagsOff
    if comma ≠ 0x2C then return .ignore
    let tagsLen ← scanNul buf tagsOff (len - tagsOff)
    let argsOff := tagsOff + pad4 (tagsLen + 1)
    let address ← readBytes buf 0 addrLen
    let typesLen ← lengthPred tagsLen
    let types ← readBytes buf (tagsOff + 1) typesLen
    let avail := if argsOff < len then len - argsOff else 0
    routeReads fns buf argsOff address types avail

/-- The argument loop of `dispatch_osc`; it may read the `args_len` bytes it was
    given. -/
def oscArgsReads (args : List Byte) (argsLen : Nat) :
    Nat → List Byte → Option (List (LuaArg D) × Nat)
  | argOff, [] => some ([], argOff)
  | argOff, tag :: tags =>
      if tag = tagInt ∧ argOff + 4 ≤ argsLen then do
        let word ← readWord (args.take argsLen) argOff
        let (vals, stop) ← oscArgsReads args argsLen (argOff + 4) tags
        return (.integer (swapMasked word).toInt :: vals, stop)
      else if tag = tagFloat ∧ argOff + 4 ≤ argsLen then do
        let word ← readWord (args.take argsLen) argOff
        let (vals, stop) ← oscArgsReads args argsLen (argOff + 4) tags
        return (.number (CDouble.ofFloatBits (swapMasked word)) :: vals, stop)
      else if tag = tagString ∧ argOff < argsLen then do
        let slen ← scanNul (args.take argsLen) argOff (argsLen - argOff)
        let s ← readBytes (args.take argsLen) argOff slen
        let (vals, stop) ← oscArgsReads args argsLen (argOff + oscPad4 (slen + 1)) tags
        return (.string s :: vals, stop)
      else oscArgsReads args argsLen argOff tags

/-! ## Nothing is read outside -/

/-- The routes read inside the bytes that `avail` counts. -/
theorem routeReads_eq (fns : DispatchFns) (buf : List Byte) (off : Nat)
    (address types : List Byte) (avail : Nat) (havail : avail = 0 ∨ off + avail ≤ buf.length) :
    routeReads (D := D) fns buf off address types avail =
      some (route fns address types (buf.drop off) avail) := by
  -- each route checks `avail` before it reads
  have hword : ∀ k, k + 4 ≤ avail →
      readWord buf (off + k) = some (loadWord ((buf.drop off).drop k)) := by
    intro k hk
    rw [readWord_eq (by omega), List.drop_drop]
  unfold routeReads route
  split
  · next h =>
    have h0 : readWord buf off = some (loadWord (buf.drop off)) := hword 0 (by omega)
    rw [h0, hword 4 (by omega), hword 8 (by omega), hword 12 (by omega)]
    rfl
  · split
    · next h =>
      have h0 : readWord buf off = some (loadWord (buf.drop off)) := hword 0 (by omega)
      rw [h0, hword 4 (by omega), hword 8 (by omega)]
      rfl
    · split
      · next h =>
        have h0 : readWord buf off = some (loadWord (buf.drop off)) := hword 0 (by omega)
        rw [h0, hword 4 (by omega), hword 8 (by omega), hword 12 (by omega)]
        rfl
      · split
        · cases fns.getEndpoints with
          | none => rfl
          | some paths => cases fns.hasSender <;> rfl
        · split <;> rfl

theorem strnlen_le (bytes : List Byte) : strnlen bytes ≤ bytes.length :=
  (List.takeWhile_sublist _).length_le

/-- A tag string that starts with its comma is not empty. -/
theorem strnlen_pos {bytes : List Byte} (h : bytes.head? = some 0x2C) : 1 ≤ strnlen bytes := by
  cases bytes with
  | nil => cases h
  | cons b rest =>
      rw [List.head?_cons, Option.some.injEq] at h
      rw [h, strnlen, List.takeWhile_cons_of_pos (by decide)]
      exact Nat.succ_pos _

theorem handlePacketReads_eq (fns : DispatchFns) (buf : List Byte) :
    handlePacketReads (D := D) fns buf = some (handlePacket fns buf) := by
  unfold handlePacketReads handlePacket
  simp only
  by_cases hlen : buf.length < 8
  · rw [if_pos hlen, if_pos hlen]
  rw [if_neg hlen, if_neg hlen]
  have haddr : scanNul buf 0 buf.length = some (strnlen buf) := by
    rw [scanNul_eq (by omega), List.drop_zero, List.take_length]
  rw [haddr]
  simp only [Option.bind_eq_bind, Option.bind_some]
  by_cases hunterminated : strnlen buf ≥ buf.length
  · rw [if_pos hunterminated, if_pos hunterminated]
    rfl
  rw [if_neg hunterminated, if_neg hunterminated]
  -- the address ends inside the datagram, but its padding may not
  generalize htags : pad4 (strnlen buf + 1) = tagsOff
  by_cases hnoTags : tagsOff ≥ buf.length
  · rw [if_pos hnoTags, if_pos hnoTags]
    rfl
  rw [if_neg hnoTags, if_neg hnoTags]
  have htagsOff : tagsOff < buf.length := by omega
  obtain ⟨comma, hcomma, hdrop⟩ := drop_eq_readByte htagsOff
  have hhead : (buf.drop tagsOff).head? = some comma := by rw [hdrop, List.head?_cons]
  rw [hcomma, hhead, Option.bind_some]
  by_cases hnoComma : comma ≠ 0x2C
  · rw [if_pos hnoComma, if_pos (fun h => hnoComma (Option.some.inj h))]
    rfl
  rw [if_neg hnoComma, if_neg (fun h => hnoComma (fun heq => h (congrArg some heq)))]
  -- the tag string: its comma is what keeps `tags_len - 1` from wrapping
  have hscan : scanNul buf tagsOff (buf.length - tagsOff) = some (strnlen (buf.drop tagsOff)) := by
    rw [scanNul_eq (by omega), List.take_of_length_le (by rw [List.length_drop])]
  have hpos : 1 ≤ strnlen (buf.drop tagsOff) := by
    apply strnlen_pos
    rw [hhead, not_not.mp hnoComma]
  have hle := strnlen_le (buf.drop tagsOff)
  rw [List.length_drop] at hle
  obtain ⟨typesLen, htypesLen⟩ : ∃ n, strnlen (buf.drop tagsOff) = n + 1 :=
    ⟨_, (Nat.succ_pred_eq_of_pos hpos).symm⟩
  rw [hscan, Option.bind_some, readBytes_eq (by omega), List.drop_zero, Option.bind_some,
    htypesLen, lengthPred, Option.bind_some, readBytes_eq (by omega), Option.bind_some,
    routeReads_eq, List.drop_drop, Nat.add_sub_cancel]
  split
  · right
    omega
  · exact Or.inl rfl

/-- The argument loop reads inside the bytes it was given. -/
theorem oscArgsReads_eq {args : List Byte} {argsLen : Nat} (h : argsLen ≤ args.length)
    (argOff : Nat) (tags : List Byte) :
    oscArgsReads (D := D) args argsLen argOff tags = some (oscArgs args argsLen argOff tags) := by
  have hwindow : (args.take argsLen).length = argsLen := by
    rw [List.length_take]
    omega
  induction tags generalizing argOff with
  | nil => rfl
  | cons tag tags ih =>
      have hword : argOff + 4 ≤ argsLen →
          readWord (args.take argsLen) argOff = some (loadWord (args.drop argOff)) := by
        intro hroom
        rw [readWord_eq (by omega), List.drop_take, loadWord_take (by omega)]
      rw [oscArgsReads, oscArgs]
      by_cases hint : tag = tagInt ∧ argOff + 4 ≤ argsLen
      · rw [if_pos hint, if_pos hint, hword hint.2, ih]
        rfl
      rw [if_neg hint, if_neg hint]
      by_cases hfloat : tag = tagFloat ∧ argOff + 4 ≤ argsLen
      · rw [if_pos hfloat, if_pos hfloat, hword hfloat.2, ih]
        rfl
      rw [if_neg hfloat, if_neg hfloat]
      by_cases hstring : tag = tagString ∧ argOff < argsLen
      · rw [if_pos hstring, if_pos hstring]
        -- the scan stops at the end of the window, so the string lies in it
        have hrest : ((args.take argsLen).drop argOff).take (argsLen - argOff) =
            (args.drop argOff).take (argsLen - argOff) := by
          rw [List.drop_take, List.take_take, Nat.min_self]
        have hle := strnlen_le ((args.drop argOff).take (argsLen - argOff))
        rw [List.length_take, List.length_drop] at hle
        have hbytes : ((args.take argsLen).drop argOff).take
            (strnlen ((args.drop argOff).take (argsLen - argOff))) =
            ((args.drop argOff).take (argsLen - argOff)).take
              (strnlen ((args.drop argOff).take (argsLen - argOff))) := by
          rw [List.drop_take]
        rw [scanNul_eq (by omega), hrest, Option.bind_eq_bind, Option.bind_some,
          readBytes_eq (by omega), hbytes, Option.bind_eq_bind, Option.bind_some, ih]
        rfl
      · rw [if_neg hstring, if_neg hstring]
        exact ih argOff

/-- What is forwarded is a suffix of the datagram, and `avail` counts it. -/
theorem handlePacket_forwards {fns : DispatchFns} {buf address types args : List Byte}
    {avail : Nat} (h : handlePacket (D := D) fns buf = .dispatch address types args avail) :
    (∃ off, args = buf.drop off) ∧ avail ≤ args.length := by
  have hroute : ∀ (a t : List Byte) (off n : Nat), (n = 0 ∨ off + n ≤ buf.length) →
      route (D := D) fns a t (buf.drop off) n = .dispatch address types args avail →
      (∃ off, args = buf.drop off) ∧ avail ≤ args.length := by
    intro a t off n hn hdispatch
    have hargs : args = buf.drop off ∧ avail = n := by
      -- only the last route forwards
      unfold route at hdispatch
      split at hdispatch
      · cases hdispatch
      split at hdispatch
      · cases hdispatch
      split at hdispatch
      · cases hdispatch
      split at hdispatch
      · split at hdispatch
        · cases hdispatch
        · split at hdispatch <;> cases hdispatch
      split at hdispatch
      · cases hdispatch
        exact ⟨rfl, rfl⟩
      · cases hdispatch
    obtain ⟨rfl, rfl⟩ := hargs
    refine ⟨⟨off, rfl⟩, ?_⟩
    rw [List.length_drop]
    omega
  unfold handlePacket at h
  simp only at h
  split at h
  · cases h
  split at h
  · cases h
  split at h
  · cases h
  split at h
  · cases h
  refine hroute _ _ _ _ ?_ h
  split
  · right
    omega
  · exact Or.inl rfl

/-- No datagram is read outside: every byte that `handle_packet`, its routes and the
    argument loop fetch is there, and the length of the type tags does not wrap. -/
theorem osc_reads_inside (fns : DispatchFns) (buf : List Byte) :
    handlePacketReads (D := D) fns buf = some (handlePacket fns buf) ∧
      ∀ address types args avail,
        handlePacket (D := D) fns buf = .dispatch address types args avail →
          (∃ off, args = buf.drop off) ∧
            oscArgsReads (D := D) args avail 0 types = some (oscArgs args avail 0 types) := by
  refine ⟨handlePacketReads_eq fns buf, fun address types args avail hdispatch => ?_⟩
  obtain ⟨hsuffix, havail⟩ := handlePacket_forwards hdispatch
  exact ⟨hsuffix, oscArgsReads_eq havail 0 types⟩

end Reads

/-! ## Missing arguments -/

section Missing

variable {D : Type*} [CDouble D]

/-- The bytes the argument of `tag` takes at the front of `bytes`; `none` when it is
    missing or cut short. -/
def argWidth (tag : Byte) (bytes : List Byte) : Option Nat :=
  if tag = tagInt ∨ tag = tagFloat then if 4 ≤ bytes.length then some 4 else none
  else if tag = tagString then
    if bytes = [] then none else some (oscPad4 (strnlen bytes + 1))
  else none

/-- The value of the argument of `tag` at the front of `bytes`. -/
def argValue (tag : Byte) (bytes : List Byte) : LuaArg D :=
  if tag = tagInt then .integer (oscReadI32 bytes).toInt
  else if tag = tagFloat then .number (CDouble.ofFloatBits (oscReadF32 bytes))
  else .string (bytes.take (strnlen bytes))

/-- The values the tags describe: argument after argument, up to the first that is
    missing. -/
def describedArgs : List Byte → List Byte → List (LuaArg D)
  | [], _ => []
  | tag :: tags, bytes =>
      match argWidth tag bytes with
      | some w => argValue tag bytes :: describedArgs tags (bytes.drop w)
      | none => []

/-- The first missing argument is a number of which some bytes are there, and a string
    tag follows it. -/
def ShortNumberThenString : List Byte → List Byte → Prop
  | [], _ => False
  | tag :: tags, bytes =>
      match argWidth tag bytes with
      | some w => ShortNumberThenString tags (bytes.drop w)
      | none => bytes ≠ [] ∧ tagString ∈ tags

/-- The argument loop on what is left of the buffer: a missing argument is skipped. -/
def passedArgs : List Byte → List Byte → List (LuaArg D)
  | [], _ => []
  | tag :: tags, bytes =>
      match argWidth tag bytes with
      | some w => argValue tag bytes :: passedArgs tags (bytes.drop w)
      | none => passedArgs tags bytes

theorem passedArgs_some {tag : Byte} {bytes : List Byte} {w : Nat}
    (h : argWidth tag bytes = some w) (tags : List Byte) :
    passedArgs (D := D) (tag :: tags) bytes =
      argValue tag bytes :: passedArgs tags (bytes.drop w) := by
  rw [passedArgs, h]

theorem passedArgs_none {tag : Byte} {bytes : List Byte} (h : argWidth tag bytes = none)
    (tags : List Byte) : passedArgs (D := D) (tag :: tags) bytes = passedArgs tags bytes := by
  rw [passedArgs, h]

theorem argWidth_number {tag : Byte} {bytes : List Byte} (htag : tag = tagInt ∨ tag = tagFloat)
    (h : 4 ≤ bytes.length) : argWidth tag bytes = some 4 := by
  rw [argWidth, if_pos htag, if_pos h]

theorem argWidth_string {bytes : List Byte} (h : bytes ≠ []) :
    argWidth tagString bytes = some (oscPad4 (strnlen bytes + 1)) := by
  rw [argWidth, if_neg (by decide), if_pos rfl, if_neg h]

theorem argWidth_none {tag : Byte} {bytes : List Byte}
    (hnumber : (tag = tagInt ∨ tag = tagFloat) → bytes.length < 4)
    (hstring : tag = tagString → bytes = []) : argWidth tag bytes = none := by
  unfold argWidth
  split
  · next htag => rw [if_neg (Nat.not_le.mpr (hnumber htag))]
  · split
    · next htag => rw [if_pos (hstring htag)]
    · rfl

/-- The loop of `dispatch_osc` over offsets is the loop over what is left. -/
theorem oscArgs_fst (args tags : List Byte) (argOff : Nat) :
    (oscArgs (D := D) args args.length argOff tags).1 = passedArgs tags (args.drop argOff) := by
  induction tags generalizing argOff with
  | nil => rfl
  | cons tag tags ih =>
      have hlen : (args.drop argOff).length = args.length - argOff := List.length_drop ..
      have hall : (args.drop argOff).take (args.length - argOff) = args.drop argOff :=
        List.take_of_length_le (le_of_eq hlen)
      have hnext (w : Nat) : (args.drop argOff).drop w = args.drop (argOff + w) :=
        List.drop_drop ..
      rw [oscArgs]
      by_cases hint : tag = tagInt ∧ argOff + 4 ≤ args.length
      · have hroom : 4 ≤ (args.drop argOff).length := by omega
        have hw := argWidth_number (Or.inl hint.1) hroom
        rw [if_pos hint, passedArgs_some hw, hnext, ← ih, argValue, if_pos hint.1]
      rw [if_neg hint]
      by_cases hfloat : tag = tagFloat ∧ argOff + 4 ≤ args.length
      · have hroom : 4 ≤ (args.drop argOff).length := by omega
        have hw := argWidth_number (Or.inr hfloat.1) hroom
        rw [if_pos hfloat]
        obtain ⟨rfl, -⟩ := hfloat
        rw [passedArgs_some hw, hnext, ← ih, argValue, if_neg (by decide), if_pos rfl]
      rw [if_neg hfloat]
      by_cases hstring : tag = tagString ∧ argOff < args.length
      · have hne : args.drop argOff ≠ [] := by
          rw [ne_eq, List.drop_eq_nil_iff]
          omega
        rw [if_pos hstring, hall]
        obtain ⟨rfl, -⟩ := hstring
        rw [passedArgs_some (argWidth_string hne), hnext, ← ih, argValue, if_neg (by decide),
          if_neg (by decide)]
      · -- no branch of the loop applies: the argument is missing and the offset stays
        have hw : argWidth tag (args.drop argOff) = none := by
          apply argWidth_none
          · rintro (htag | htag)
            · by_contra hroom
              exact hint ⟨htag, by omega⟩
            · by_contra hroom
              exact hfloat ⟨htag, by omega⟩
          · intro htag
            rw [List.drop_eq_nil_iff]
            by_contra hlt
            exact hstring ⟨htag, by omega⟩
        rw [if_neg hstring, passedArgs_none hw]
        exact ih argOff

/-- With less than a number left, the loop passes something exactly when something is
    left and a string tag comes. -/
theorem passedArgs_eq_nil_iff {bytes : List Byte} (h : bytes.length < 4) (tags : List Byte) :
    passedArgs (D := D) tags bytes = [] ↔ ¬ (bytes ≠ [] ∧ tagString ∈ tags) := by
  induction tags with
  | nil => simp [passedArgs]
  | cons tag tags ih =>
      by_cases hs : tag = tagString ∧ bytes ≠ []
      · obtain ⟨rfl, hne⟩ := hs
        rw [passedArgs_some (argWidth_string hne)]
        simp [hne]
      · have hw : argWidth tag bytes = none :=
          argWidth_none (fun _ => h) fun htag => not_not.mp fun hne => hs ⟨htag, hne⟩
        rw [passedArgs_none hw, ih, List.mem_cons, eq_comm]
        tauto

/-- A known tag has no argument only when fewer than four bytes are left. -/
theorem length_lt_of_argWidth_none {tag : Byte} {bytes : List Byte}
    (htag : tag = tagInt ∨ tag = tagFloat ∨ tag = tagString) (h : argWidth tag bytes = none) :
    bytes.length < 4 := by
  by_contra hroom
  have hwidth : ∃ w, argWidth tag bytes = some w := by
    rcases htag with htag | htag | rfl
    · exact ⟨4, argWidth_number (Or.inl htag) (by omega)⟩
    · exact ⟨4, argWidth_number (Or.inr htag) (by omega)⟩
    · refine ⟨_, argWidth_string ?_⟩
      rintro rfl
      exact hroom (Nat.succ_pos 3)
  obtain ⟨w, hw⟩ := hwidth
  rw [h] at hw
  cases hw

/-- The values passed are a prefix of the values described unless a number is cut short
    and a string tag follows. -/
theorem passedArgs_prefix_iff {tags : List Byte}
    (htags : ∀ t ∈ tags, t = tagInt ∨ t = tagFloat ∨ t = tagString) (bytes : List Byte) :
    passedArgs (D := D) tags bytes <+: describedArgs tags bytes ↔
      ¬ ShortNumberThenString tags bytes := by
  induction tags generalizing bytes with
  | nil => simp [passedArgs, describedArgs, ShortNumberThenString]
  | cons tag tags ih =>
      rw [List.forall_mem_cons] at htags
      cases hw : argWidth tag bytes with
      | some w =>
          rw [passedArgs_some hw, describedArgs, ShortNumberThenString, hw]
          simp only [List.cons_prefix_cons, true_and]
          exact ih htags.2 (bytes.drop w)
      | none =>
          -- nothing more is described, so nothing more may be passed
          have hshort := length_lt_of_argWidth_none htags.1 hw
          rw [passedArgs_none hw, describedArgs, ShortNumberThenString, hw]
          simp only [List.prefix_nil]
          exact passedArgs_eq_nil_iff hshort tags

/-- For every string of the tags `i`, `f` and `s` and every argument buffer: the values
    `dispatch_osc` passes are a prefix of the values the tags describe, exactly when the
    first missing argument is not a number of which one to three bytes are there with a
    string tag behind it. -/
theorem osc_args_unshifted_iff (tags args : List Byte)
    (htags : ∀ t ∈ tags, t = tagInt ∨ t = tagFloat ∨ t = tagString) :
    (oscArgs (D := D) args args.length 0 tags).1 <+: describedArgs tags args ↔
      ¬ ShortNumberThenString tags args := by
  rw [oscArgs_fst, List.drop_zero]
  exact passedArgs_prefix_iff htags args

end Missing

/-- `,ifs` with only the integer there. -/
theorem osc_args_unshifted_truncated :
    (@oscArgs Int countingDouble [0, 0, 0, 7] 4 0 (ascii "ifs")).1 <+:
      @describedArgs Int countingDouble (ascii "ifs") [0, 0, 0, 7] :=
  (@osc_args_unshifted_iff Int countingDouble (ascii "ifs") [0, 0, 0, 7] (by decide)).mpr
    (by simp [ascii, ShortNumberThenString, argWidth, tagInt, tagFloat])

/-- `,is` with three bytes: the handler gets the string `ab` as its first argument,
    where the integer should have been. -/
theorem short_integer_shifted :
    (@oscArgs Int countingDouble [0x61, 0x62, 0] 3 0 (ascii "is")).1 = [.string (ascii "ab")] ∧
      @describedArgs Int countingDouble (ascii "is") [0x61, 0x62, 0] = [] ∧
      ¬ (@oscArgs Int countingDouble [0x61, 0x62, 0] 3 0 (ascii "is")).1 <+:
        @describedArgs Int countingDouble (ascii "is") [0x61, 0x62, 0] := by
  decide

end NomosRt.Osc
