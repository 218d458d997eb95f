/-
  NomosRt.Ipc.Channel

  `read_message` and `write_message` over a stream descriptor.

  Every `::read` and `::write` outcome is the kernel's choice, so each end of a
  channel carries a schedule: the outcomes of the calls to come.  A call past the
  end of the schedule transfers everything it is asked for.  A schedule is
  *benign* when each of its outcomes moves at least one byte or is an `EINTR`
  failure; the round trip holds for every benign pair of schedules.

  `errno` is part of the state: `read_exact` clears it at end of file and
  `read_message` reads it back to tell end of file from a failed call.
-/

import NomosRt.Lib.Words

namespace NomosRt.Ipc

open NomosRt.Lib

/-! ## Descriptors -/

/-- The values of `errno` the channel tells apart. -/
inductive Errno where
  | clear
  | eintr
  | econnreset
  | other (code : Nat)
  deriving DecidableEq, Repr

/-- The outcome of one `::read` or `::write`: it fails with an `errno`, or moves
    at most `k` bytes. -/
inductive SysResult where
  | fail (e : Errno)
  | moved (k : Nat)
  deriving DecidableEq, Repr

/-- A call that moves at least one byte or is interrupted. -/
def SysResult.Benign : SysResult → Prop
  | .fail e => e = .eintr
  | .moved k => 1 ≤ k

instance : DecidablePred SysResult.Benign
  | .fail e => inferInstanceAs (Decidable (e = .eintr))
  | .moved k => inferInstanceAs (Decidable (1 ≤ k))

/-- Every call of the schedule moves a byte or is interrupted. -/
def Benign (sched : List SysResult) : Prop := ∀ r ∈ sched, r.Benign

instance (sched : List SysResult) : Decidable (Benign sched) :=
  inferInstanceAs (Decidable (∀ r ∈ sched, r.Benign))

/-- The reading end: outcomes to come, bytes the peer wrote before it closed and
    that are not yet read, and `errno`. -/
structure ReadEnd where
  sched : List SysResult
  inbox : List Byte
  errno : Errno

/-- The writing end: outcomes to come, bytes put on the stream, and `errno`. -/
structure WriteEnd where
  sched : List SysResult
  sent : List Byte
  errno : Errno

/-! ## `read_exact`, `write_exact` -/

/-- `read_exact`: `rem` bytes into the buffer, or `none` for a false return. -/
def readExact : List SysResult → Errno → List Byte → Nat → Option (List Byte) × ReadEnd
  | sched, errno, inbox, 0 => (some [], ⟨sched, inbox, errno⟩)
  | [], errno, inbox, rem + 1 =>
      -- past the schedule: one full transfer, or end of file after what there is
      if inbox.length < rem + 1 then (none, ⟨[], [], .clear⟩)
      else (some (inbox.take (rem + 1)), ⟨[], inbox.drop (rem + 1), errno⟩)
  | .fail e :: sched, _, inbox, rem + 1 =>
      if e = .eintr then readExact sched e inbox (rem + 1) else (none, ⟨sched, inbox, e⟩)
  | .moved k :: sched, errno, inbox, rem + 1 =>
      let r := min k (min (rem + 1) inbox.length)
      -- `::read` returned 0: the only way to see that the peer has closed
      if r = 0 then (none, ⟨sched, inbox, .clear⟩)
      else
        let (tail, fd) := readExact sched errno (inbox.drop r) (rem + 1 - r)
        (tail.map (inbox.take r ++ ·), fd)

/-- `write_exact`: put the bytes of `buf` on the stream. -/
def writeExact : List SysResult → Errno → List Byte → List Byte → Bool × WriteEnd
  | sched, errno, sent, [] => (true, ⟨sched, sent, errno⟩)
  | [], errno, sent, b :: buf => (true, ⟨[], sent ++ b :: buf, errno⟩)
  | .fail e :: sched, _, sent, b :: buf =>
      if e = .eintr then writeExact sched e sent (b :: buf) else (false, ⟨sched, sent, e⟩)
  | .moved k :: sched, errno, sent, b :: buf =>
      let w := min k (b :: buf).length
      -- `w <= 0` is a failure here, with `errno` left as it was
      if w = 0 then (false, ⟨sched, sent, errno⟩)
      else writeExact sched errno (sent ++ (b :: buf).take w) ((b :: buf).drop w)

/-! ## Messages -/

/-- `channel_error`. -/
inductive ChannelError where
  | eof
  | ioError
  | frameTooLarge
  deriving DecidableEq, Repr

/-- `max_payload_bytes`, one MiB. -/
def maxPayloadBytes : Nat := 1 <<< 20

/-- `header_size`. -/
def headerSize : Nat := 8

/-- The frame header; `payloadLen` is in the byte order of whoever holds it. -/
structure Header where
  payloadLen : BitVec 32
  type : Byte
  reserved : Byte × Byte × Byte
  deriving DecidableEq, Repr

/-- The header's memory image. -/
def Header.image (h : Header) : List Byte :=
  leBytes h.payloadLen ++ [h.type, h.reserved.1, h.reserved.2.1, h.reserved.2.2]

/-- The header whose memory image is `bs`. -/
def Header.ofImage : List Byte → Header
  | [b0, b1, b2, b3, t, r0, r1, r2] => ⟨wordOf b0 b1 b2 b3, t, (r0, r1, r2)⟩
  | _ => ⟨0, 0, (0, 0, 0)⟩

/-- A fully read frame. -/
structure Message where
  hdr : Header
  payload : List Byte
  deriving DecidableEq, Repr

/-- The error `read_message` returns after `read_exact` returned false. -/
def readError (errno : Errno) : ChannelError :=
  if errno = .clear ∨ errno = .econnreset then .eof else .ioError

/-- `read_message`. -/
def readMessage (fd : ReadEnd) : Except ChannelError Message × ReadEnd :=
  match readExact fd.sched fd.errno fd.inbox headerSize with
  | (none, fd) => (.error (readError fd.errno), fd)
  | (some buf, fd) =>
      let hdr := Header.ofImage buf
      let len := bswap32 hdr.payloadLen
      -- the length is tested before any payload byte is read
      if len.toNat > maxPayloadBytes then (.error .frameTooLarge, fd)
      else
        let hdr := { hdr with payloadLen := len }
        if len.toNat = 0 then (.ok ⟨hdr, []⟩, fd)
        else
          match readExact fd.sched fd.errno fd.inbox len.toNat with
          | (none, fd) => (.error (readError fd.errno), fd)
          | (some payload, fd) => (.ok ⟨hdr, payload⟩, fd)

/-- The header `write_message` sends. -/
def sentHeader (type : Byte) (len : BitVec 32) : Header := ⟨bswap32 len, type, (0, 0, 0)⟩

/-- `write_message`; `none` is success. -/
def writeMessage (fd : WriteEnd) (type : Byte) (payload : List Byte) :
    Option ChannelError × WriteEnd :=
  let len := BitVec.ofNat 32 payload.length
  match writeExact fd.sched fd.errno fd.sent (sentHeader type len).image with
  | (false, fd) => (some .ioError, fd)
  | (true, fd) =>
      -- the 32-bit length decides how much of the payload is sent
      if len.toNat = 0 then (none, fd)
      else
        match writeExact fd.sched fd.errno fd.sent (payload.take len.toNat) with
        | (false, fd) => (some .ioError, fd)
        | (true, fd) => (none, fd)

/-- Write each frame in turn, stopping at the first failure. -/
def writeAll (fd : WriteEnd) : List (Byte × List Byte) → Option ChannelError × WriteEnd
  | [] => (none, fd)
  | (type, payload) :: frames =>
      match writeMessage fd type payload with
      | (some e, fd) => (some e, fd)
      | (none, fd) => writeAll fd frames

/-- `n` successive `read_message` calls. -/
def readAll : Nat → ReadEnd → List (Except ChannelError Message)
  | 0, _ => []
  | n + 1, fd => (readMessage fd).1 :: readAll n (readMessage fd).2

/-! ## Transfers under a benign schedule -/

theorem Benign.of_cons {r : SysResult} {sched : List SysResult} (h : Benign (r :: sched)) :
    r.Benign ∧ Benign sched :=
  ⟨h r (List.mem_cons_self ..), fun x hx => h x (List.mem_cons_of_mem _ hx)⟩

/-- With enough bytes in the stream `read_exact` takes the first `rem` of them. -/
theorem readExact_spec {sched : List SysResult} (hb : Benign sched) (errno : Errno)
    {inbox : List Byte} {rem : Nat} (hlen : rem ≤ inbox.length) :
    ∃ sched' errno', Benign sched' ∧ readExact sched errno inbox rem =
      (some (inbox.take rem), ⟨sched', inbox.drop rem, errno'⟩) := by
  -- on the schedule: each outcome is one round of the loop
  induction sched generalizing errno inbox rem with
  | nil =>
      cases rem with
      | zero => exact ⟨[], errno, hb, by simp [readExact]⟩
      | succ rem =>
          refine ⟨[], errno, hb, ?_⟩
          rw [readExact, if_neg (by omega)]
  | cons r sched ih =>
      obtain ⟨hr, hb'⟩ := hb.of_cons
      cases rem with
      | zero => exact ⟨r :: sched, errno, hb, by simp [readExact]⟩
      | succ rem =>
          cases r with
          | fail e =>
              have heintr : e = .eintr := hr
              rw [readExact, if_pos heintr]
              exact ih hb' e hlen
          | moved k =>
              have hk : 1 ≤ k := hr
              rw [readExact]
              set r := min k (min (rem + 1) inbox.length) with hrdef
              have hpos : r ≠ 0 := by omega
              -- the call took `r` bytes; the rest is the induction hypothesis on the remainder
              have hrest : rem + 1 - r ≤ (inbox.drop r).length := by
                rw [List.length_drop]
                omega
              obtain ⟨sched', errno', hb'', heq⟩ := ih hb' errno hrest
              refine ⟨sched', errno', hb'', ?_⟩
              have hsum : r + (rem + 1 - r) = rem + 1 := by omega
              simp only [if_neg hpos, heq, Option.map_some, List.drop_drop, hsum]
              rw [← List.take_add, hsum]

/-- With too few bytes in the stream `read_exact` fails and `errno` is clear. -/
theorem readExact_short {sched : List SysResult} (hb : Benign sched) (errno : Errno)
    {inbox : List Byte} {rem : Nat} (hlen : inbox.length < rem) :
    ∃ fd, readExact sched errno inbox rem = (none, fd) ∧ fd.errno = .clear := by
  induction sched generalizing errno inbox rem with
  | nil =>
      obtain ⟨rem, rfl⟩ := Nat.exists_eq_add_of_lt hlen
      rw [readExact, if_pos (by omega)]
      exact ⟨_, rfl, rfl⟩
  | cons r sched ih =>
      obtain ⟨hr, hb'⟩ := hb.of_cons
      cases rem with
      | zero => exact absurd hlen (by omega)
      | succ rem =>
          cases r with
          | fail e =>
              have heintr : e = .eintr := hr
              rw [readExact, if_pos heintr]
              exact ih hb' e hlen
          | moved k =>
              rw [readExact]
              set r := min k (min (rem + 1) inbox.length) with hrdef
              by_cases hzero : r = 0
              · -- the stream is used up: this is the round that sees end of file
                simp only [if_pos hzero]
                exact ⟨_, rfl, rfl⟩
              · have hrest : (inbox.drop r).length < rem + 1 - r := by
                  rw [List.length_drop]
                  omega
                obtain ⟨fd, heq, herr⟩ := ih hb' errno hrest
                refine ⟨fd, ?_, herr⟩
                simp only [if_neg hzero, heq, Option.map_none]

/-- `write_exact` puts exactly its buffer on the stream. -/
theorem writeExact_spec {sched : List SysResult} (hb : Benign sched) (errno : Errno)
    (sent buf : List Byte) :
    ∃ sched' errno', Benign sched' ∧ writeExact sched errno sent buf =
      (true, ⟨sched', sent ++ buf, errno'⟩) := by
  induction sched generalizing errno sent buf with
  | nil =>
      cases buf with
      | nil => exact ⟨[], errno, hb, by simp [writeExact]⟩
      | cons b buf => exact ⟨[], errno, hb, by simp [writeExact]⟩
  | cons r sched ih =>
      obtain ⟨hr, hb'⟩ := hb.of_cons
      cases buf with
      | nil => exact ⟨r :: sched, errno, hb, by simp [writeExact]⟩
      | cons b buf =>
          cases r with
          | fail e =>
              have heintr : e = .eintr := hr
              rw [writeExact, if_pos heintr]
              exact ih hb' e sent (b :: buf)
          | moved k =>
              have hk : 1 ≤ k := hr
              rw [writeExact]
              set w := min k (b :: buf).length with hwdef
              have hpos : w ≠ 0 := by
                rw [hwdef, List.length_cons]
                omega
              -- what was moved goes to the end of the stream, the rest to the next round
              obtain ⟨sched', errno', hb'', heq⟩ :=
                ih hb' errno (sent ++ (b :: buf).take w) ((b :: buf).drop w)
              refine ⟨sched', errno', hb'', ?_⟩
              simp only [if_neg hpos, heq]
              rw [List.append_assoc, List.take_append_drop]

/-! ## Whole frames -/

/-- The bytes `write_message` puts on the stream. -/
def frameBytes (type : Byte) (payload : List Byte) : List Byte :=
  (sentHeader type (BitVec.ofNat 32 payload.length)).image ++ payload

/-- The message a reader makes of a frame. -/
def frameMessage (f : Byte × List Byte) : Message :=
  ⟨⟨BitVec.ofNat 32 f.2.length, f.1, (0, 0, 0)⟩, f.2⟩

@[simp] theorem length_image (h : Header) : h.image.length = headerSize := rfl

/-- Reading back the image of a sent header. -/
theorem ofImage_sentHeader (type : Byte) (len : BitVec 32) :
    Header.ofImage (sentHeader type len).image = sentHeader type len := by
  have hword := wordOf_byteOf (bswap32 len)
  show Header.mk (wordOf _ _ _ _) type (0, 0, 0) = _
  rw [sentHeader, ← hword]
  simp only [hword]

/-- A payload that fits has a length the 32-bit field holds exactly. -/
theorem toNat_payloadLen {payload : List Byte} (h : payload.length ≤ maxPayloadBytes) :
    (BitVec.ofNat 32 payload.length).toNat = payload.length := by
  rw [BitVec.toNat_ofNat]
  apply Nat.mod_eq_of_lt
  calc payload.length ≤ maxPayloadBytes := h
    _ < 2 ^ 32 := by decide

/-- One `write_message` puts one frame on the stream. -/
theorem writeMessage_spec {fd : WriteEnd} (hb : Benign fd.sched) (type : Byte)
    {payload : List Byte} (hlen : payload.length ≤ maxPayloadBytes) :
    ∃ fd', Benign fd'.sched ∧ writeMessage fd type payload = (none, fd') ∧
      fd'.sent = fd.sent ++ frameBytes type payload := by
  obtain ⟨sched₁, errno₁, hb₁, heq₁⟩ := writeExact_spec hb fd.errno fd.sent
    (sentHeader type (BitVec.ofNat 32 payload.length)).image
  simp only [writeMessage, heq₁]
  -- the payload fits, so the length field does not cut it
  rw [toNat_payloadLen hlen, List.take_length]
  by_cases hzero : payload.length = 0
  · have hnil : payload = [] := List.eq_nil_of_length_eq_zero hzero
    refine ⟨_, hb₁, by rw [if_pos hzero], ?_⟩
    simp [frameBytes, hnil]
  · obtain ⟨sched₂, errno₂, hb₂, heq₂⟩ := writeExact_spec hb₁ errno₁
      (fd.sent ++ (sentHeader type (BitVec.ofNat 32 payload.length)).image) payload
    rw [if_neg hzero, heq₂]
    exact ⟨_, hb₂, rfl, by simp [frameBytes]⟩

/-- Writing frames in turn puts their concatenation on the stream. -/
theorem writeAll_spec {frames : List (Byte × List Byte)}
    (hlen : ∀ f ∈ frames, f.2.length ≤ maxPayloadBytes) (fd : WriteEnd)
    (hb : Benign fd.sched) :
    ∃ fd', writeAll fd frames = (none, fd') ∧
      fd'.sent = fd.sent ++ (frames.map fun f => frameBytes f.1 f.2).flatten := by
  induction frames generalizing fd with
  | nil => exact ⟨fd, rfl, by simp⟩
  | cons f frames ih =>
      obtain ⟨fd₁, hb₁, heq, hsent⟩ := writeMessage_spec hb f.1 (hlen f (List.mem_cons_self ..))
      obtain ⟨fd₂, heq₂, hsent₂⟩ := ih (fun g hg => hlen g (List.mem_cons_of_mem _ hg)) fd₁ hb₁
      refine ⟨fd₂, ?_, ?_⟩
      · simp only [writeAll, heq, heq₂]
      · rw [hsent₂, hsent, List.map_cons, List.flatten_cons, List.append_assoc]

/-- On a stream that starts with a whole frame within the cap, `read_message` returns
    the header with its length in host order, the payload, and leaves what follows. -/
theorem readMessage_whole {sched : List SysResult} (hb : Benign sched) (errno : Errno)
    {inbox : List Byte} {hdr : Header} {len : BitVec 32}
    (hhdr : Header.ofImage (inbox.take headerSize) = hdr) (hlen : bswap32 hdr.payloadLen = len)
    (hcap : len.toNat ≤ maxPayloadBytes) (hroom : headerSize + len.toNat ≤ inbox.length) :
    ∃ sched' errno', Benign sched' ∧ readMessage ⟨sched, inbox, errno⟩ =
      (.ok ⟨{ hdr with payloadLen := len }, (inbox.drop headerSize).take len.toNat⟩,
        ⟨sched', inbox.drop (headerSize + len.toNat), errno'⟩) := by
  obtain ⟨sched₁, errno₁, hb₁, heq₁⟩ := readExact_spec hb errno
    (show headerSize ≤ inbox.length by omega)
  simp only [readMessage, heq₁, hhdr, hlen]
  rw [if_neg (by omega)]
  by_cases hzero : len.toNat = 0
  · rw [if_pos hzero, hzero, List.take_zero, Nat.add_zero]
    exact ⟨sched₁, errno₁, hb₁, rfl⟩
  · obtain ⟨sched₂, errno₂, hb₂, heq₂⟩ := readExact_spec hb₁ errno₁
      (show len.toNat ≤ (inbox.drop headerSize).length by
        rw [List.length_drop]
        omega)
    rw [if_neg hzero, heq₂, List.drop_drop]
    exact ⟨sched₂, errno₂, hb₂, rfl⟩

/-- One `read_message` takes one frame off the stream. -/
theorem readMessage_frame {sched : List SysResult} (hb : Benign sched) (errno : Errno)
    (type : Byte) {payload : List Byte} (hlen : payload.length ≤ maxPayloadBytes)
    (rest : List Byte) :
    ∃ sched' errno', Benign sched' ∧
      readMessage ⟨sched, frameBytes type payload ++ rest, errno⟩ =
        (.ok (frameMessage (type, payload)), ⟨sched', rest, errno'⟩) := by
  set len := BitVec.ofNat 32 payload.length with hlendef
  have hnat : len.toNat = payload.length := toNat_payloadLen hlen
  have himage := length_image (sentHeader type len)
  have hsplit : frameBytes type payload ++ rest =
      (sentHeader type len).image ++ (payload ++ rest) := by
    rw [frameBytes, List.append_assoc]
  rw [hsplit]
  have hhdr : Header.ofImage (((sentHeader type len).image ++ (payload ++ rest)).take headerSize) =
      sentHeader type len := by
    rw [List.take_left' himage, ofImage_sentHeader]
  -- the reader undoes the writer's byte swap
  have hswap : bswap32 (sentHeader type len).payloadLen = len := bswap32_bswap32 len
  have hroom : headerSize + len.toNat ≤
      ((sentHeader type len).image ++ (payload ++ rest)).length := by
    rw [List.length_append, List.length_append, himage]
    omega
  obtain ⟨sched', errno', hb', heq⟩ := readMessage_whole hb errno hhdr hswap (by omega) hroom
  refine ⟨sched', errno', hb', ?_⟩
  rw [heq, ← List.drop_drop, List.drop_left' himage, hnat, List.take_left, List.drop_left]
  rfl

/-- A successful `read_exact` fills its buffer, whatever the kernel did. -/
theorem readExact_length {sched : List SysResult} {errno : Errno} {inbox buf : List Byte}
    {rem : Nat} {fd : ReadEnd} (h : readExact sched errno inbox rem = (some buf, fd)) :
    buf.length = rem := by
  induction sched generalizing errno inbox buf rem with
  | nil =>
      cases rem with
      | zero =>
          simp only [readExact, Prod.mk.injEq, Option.some.injEq] at h
          rw [← h.1, List.length_nil]
      | succ rem =>
          rw [readExact] at h
          split at h
          · simp at h
          · simp only [Prod.mk.injEq, Option.some.injEq] at h
            -- past the schedule there is one full transfer, or an end of file
            rw [← h.1, List.length_take]
            omega
  | cons r sched ih =>
      cases rem with
      | zero =>
          simp only [readExact, Prod.mk.injEq, Option.some.injEq] at h
          rw [← h.1, List.length_nil]
      | succ rem =>
          cases r with
          | fail e =>
              rw [readExact] at h
              split at h
              -- EINTR: the same loop with the same bytes left
              · exact ih h
              · simp at h
          | moved k =>
              simp only [readExact] at h
              split at h
              · simp at h
              · simp only [Prod.mk.injEq, Option.map_eq_some_iff] at h
                -- a short read: what it gave, and what the rest of the loop gives
                obtain ⟨⟨tail, htail, rfl⟩, hfd⟩ := h
                have hrest := ih (Prod.ext htail hfd)
                rw [List.length_append, hrest, List.length_take]
                omega

/-- Every message `read_message` returns carries the size of its payload. -/
theorem readMessage_sized {fd : ReadEnd} {msg : Message} (h : (readMessage fd).1 = .ok msg) :
    msg.hdr.payloadLen.toNat = msg.payload.length := by
  simp only [readMessage] at h
  split at h
  · simp at h
  · split at h
    · simp at h
    · split at h
      · next hzero =>
          simp only [Except.ok.injEq] at h
          rw [← h]
          exact hzero
      · split at h
        · simp at h
        · next hread =>
            simp only [Except.ok.injEq] at h
            rw [← h]
            exact (readExact_length hread).symm

/-- At the end of the stream `read_message` reports end of file. -/
theorem readMessage_eof {sched : List SysResult} (hb : Benign sched) (errno : Errno) :
    (readMessage ⟨sched, [], errno⟩).1 = .error .eof := by
  obtain ⟨fd, heq, herr⟩ := readExact_short hb errno
    (show ([] : List Byte).length < headerSize by decide)
  simp only [readMessage, heq, herr]
  rfl

/-- A stream of whole frames is read back frame by frame, then end of file. -/
theorem readAll_frames {frames : List (Byte × List Byte)}
    (hlen : ∀ f ∈ frames, f.2.length ≤ maxPayloadBytes) {sched : List SysResult}
    (hb : Benign sched) (errno : Errno) :
    readAll (frames.length + 1)
        ⟨sched, (frames.map fun f => frameBytes f.1 f.2).flatten, errno⟩ =
      frames.map (fun f => .ok (frameMessage f)) ++ [.error .eof] := by
  induction frames generalizing sched errno with
  | nil =>
      show [(readMessage ⟨sched, [], errno⟩).1] = [.error .eof]
      rw [readMessage_eof hb errno]
  | cons f frames ih =>
      obtain ⟨sched', errno', hb', heq⟩ := readMessage_frame hb errno f.1
        (hlen f (List.mem_cons_self ..)) (frames.map fun f => frameBytes f.1 f.2).flatten
      rw [List.map_cons, List.flatten_cons, List.length_cons, readAll, heq]
      rw [ih (fun g hg => hlen g (List.mem_cons_of_mem _ hg)) hb' errno']
      rfl

/-- Framing round-trips over every benign pair of schedules: all writes succeed,
    the reader gets the frames in order with their host-order length, and then
    end of file. -/
theorem framing_round_trip (frames : List (Byte × List Byte))
    (hlen : ∀ f ∈ frames, f.2.length ≤ maxPayloadBytes)
    (writes reads : List SysResult) (hw : Benign writes) (hr : Benign reads)
    (errnoW errnoR : Errno) :
    (writeAll ⟨writes, [], errnoW⟩ frames).1 = none ∧
    readAll (frames.length + 1)
        ⟨reads, (writeAll ⟨writes, [], errnoW⟩ frames).2.sent, errnoR⟩ =
      frames.map (fun f => .ok (frameMessage f)) ++ [.error .eof] ∧
    ∀ f ∈ frames, (frameMessage f).hdr.type = f.1 ∧ (frameMessage f).payload = f.2 ∧
      (frameMessage f).hdr.payloadLen.toNat = f.2.length := by
  obtain ⟨fd, heq, hsent⟩ := writeAll_spec hlen ⟨writes, [], errnoW⟩ hw
  rw [heq]
  refine ⟨rfl, ?_, ?_⟩
  · rw [hsent, List.nil_append]
    exact readAll_frames hlen hr errnoR
  · intro f hf
    exact ⟨rfl, rfl, toNat_payloadLen (hlen f hf)⟩

/-- Two frames, one of them empty, through byte-sized and interrupted calls. -/
theorem framing_round_trip_two :
    readAll 3 ⟨[.moved 3, .fail .eintr, .moved 1],
        (writeAll ⟨[.fail .eintr, .moved 1, .moved 2], [], .clear⟩
          [(0x55, [1, 2, 3]), (0x39, [])]).2.sent, .clear⟩ =
      [.ok (frameMessage (0x55, [1, 2, 3])), .ok (frameMessage (0x39, [])), .error .eof] :=
  (framing_round_trip [(0x55, [1, 2, 3]), (0x39, [])] (by decide)
    [.fail .eintr, .moved 1, .moved 2] [.moved 3, .fail .eintr, .moved 1]
    (by decide) (by decide) .clear .clear).2.1

/-! ## Payloads past the cap

`write_message` has no cap of its own: a payload is cut only by the 32-bit length.
-/

/-- What a successful `write_exact` has put on the stream, whatever the kernel did. -/
theorem writeExact_sent {sched : List SysResult} {errno : Errno} {sent buf : List Byte}
    {fd : WriteEnd} (h : writeExact sched errno sent buf = (true, fd)) :
    fd.sent = sent ++ buf := by
  induction sched generalizing errno sent buf with
  | nil =>
      cases buf with
      | nil =>
          simp only [writeExact, Prod.mk.injEq, true_and] at h
          rw [← h, List.append_nil]
      | cons b buf =>
          simp only [writeExact, Prod.mk.injEq, true_and] at h
          rw [← h]
  | cons r sched ih =>
      cases buf with
      | nil =>
          simp only [writeExact, Prod.mk.injEq, true_and] at h
          rw [← h, List.append_nil]
      | cons b buf =>
          cases r with
          | fail e =>
              rw [writeExact] at h
              split at h
              -- EINTR: nothing was sent, and the loop goes on
              · exact ih h
              · simp at h
          | moved k =>
              simp only [writeExact] at h
              split at h
              · simp at h
              · rw [ih h, List.append_assoc, List.take_append_drop]

/-- What a successful `write_message` has put on the stream: the header, and as much
    of the payload as the 32-bit length says. -/
theorem writeMessage_sent {fd fd' : WriteEnd} {type : Byte} {payload : List Byte}
    (h : writeMessage fd type payload = (none, fd')) :
    fd'.sent = fd.sent ++ ((sentHeader type (BitVec.ofNat 32 payload.length)).image ++
      payload.take (BitVec.ofNat 32 payload.length).toNat) := by
  simp only [writeMessage] at h
  rcases hhdr : writeExact fd.sched fd.errno fd.sent
    (sentHeader type (BitVec.ofNat 32 payload.length)).image with ⟨_ | _, fd₁⟩
  · simp [hhdr] at h
  · have hsent₁ := writeExact_sent hhdr
    rw [hhdr] at h
    by_cases hzero : (BitVec.ofNat 32 payload.length).toNat = 0
    · simp only [if_pos hzero, Prod.mk.injEq, true_and] at h
      rw [← h, hsent₁, hzero, List.take_zero, List.append_nil]
    · simp only [if_neg hzero] at h
      rcases hpay : writeExact fd₁.sched fd₁.errno fd₁.sent
        (payload.take (BitVec.ofNat 32 payload.length).toNat) with ⟨_ | _, fd₂⟩
      · simp only [hpay, Prod.mk.injEq, reduceCtorEq, false_and] at h
      · simp only [hpay, Prod.mk.injEq, true_and] at h
        rw [← h, writeExact_sent hpay, hsent₁, List.append_assoc]

/-- A header that declares more than the cap is refused before its payload. -/
theorem readMessage_tooLarge {sched : List SysResult} (hb : Benign sched) (errno : Errno)
    (type : Byte) {len : BitVec 32} (hlen : maxPayloadBytes < len.toNat) (rest : List Byte) :
    (readMessage ⟨sched, (sentHeader type len).image ++ rest, errno⟩).1 =
      .error .frameTooLarge := by
  have hhdr := length_image (sentHeader type len)
  obtain ⟨sched₁, errno₁, -, heq⟩ := readExact_spec hb errno
    (show headerSize ≤ ((sentHeader type len).image ++ rest).length by
      rw [List.length_append, hhdr]
      omega)
  rw [List.take_left' hhdr, List.drop_left' hhdr] at heq
  simp only [readMessage, heq, ofImage_sentHeader]
  simp only [sentHeader, bswap32_bswap32]
  rw [if_pos hlen]

/-- Whenever `write_message` reports success, `read_message` on the other end of the
    stream returns the type and the payload it was given, whatever follows the frame. -/
def WrittenIsRead (type : Byte) (payload : List Byte) : Prop :=
  ∀ (writes reads : List SysResult) (errnoW errnoR : Errno) (fd : WriteEnd) (rest : List Byte),
    Benign reads → writeMessage ⟨writes, [], errnoW⟩ type payload = (none, fd) →
    ∃ msg, (readMessage ⟨reads, fd.sent ++ rest, errnoR⟩).1 = .ok msg ∧
      msg.hdr.type = type ∧ msg.payload = payload

/-- A payload within the cap is read as it was written. -/
theorem writtenIsRead_of_le (type : Byte) {payload : List Byte}
    (hlen : payload.length ≤ maxPayloadBytes) : WrittenIsRead type payload := by
  intro writes reads errnoW errnoR fd rest hr hw
  have hsent := writeMessage_sent hw
  rw [toNat_payloadLen hlen, List.take_length, List.nil_append] at hsent
  obtain ⟨_, _, -, heq⟩ := readMessage_frame hr errnoR type hlen rest
  refine ⟨frameMessage (type, payload), ?_, rfl, rfl⟩
  rw [hsent]
  exact congrArg Prod.fst heq

/-- Past the cap the write succeeds and no message with that payload is read. -/
theorem not_writtenIsRead_of_lt (type : Byte) {payload : List Byte}
    (hlen : maxPayloadBytes < payload.length) : ¬ WrittenIsRead type payload := by
  intro h
  have hnone : Benign [] := by simp [Benign]
  set len := BitVec.ofNat 32 payload.length with hlendef
  -- on an undisturbed stream the write succeeds
  obtain ⟨fd, hw⟩ : ∃ fd, writeMessage ⟨[], [], .clear⟩ type payload = (none, fd) := by
    obtain ⟨sched₁, errno₁, hb₁, heq₁⟩ := writeExact_spec hnone .clear []
      (sentHeader type len).image
    simp only [writeMessage, ← hlendef, heq₁]
    by_cases hzero : len.toNat = 0
    · exact ⟨_, by rw [if_pos hzero]⟩
    · obtain ⟨sched₂, errno₂, -, heq₂⟩ := writeExact_spec hb₁ errno₁
        ([] ++ (sentHeader type len).image) (payload.take len.toNat)
      exact ⟨_, by rw [if_neg hzero, heq₂]⟩
  obtain ⟨msg, hread, -, hpayload⟩ := h [] [] .clear .clear fd [] hnone hw
  rw [writeMessage_sent hw, ← hlendef, List.nil_append, List.append_nil] at hread
  by_cases hcap : maxPayloadBytes < len.toNat
  · -- the length field is past the cap: the reader refuses the header
    rw [readMessage_tooLarge hnone .clear type hcap] at hread
    exact absurd hread (by simp)
  · -- the length wrapped to one within the cap: the reader returns a cut payload
    have hcut : (payload.take len.toNat).length = len.toNat := by
      rw [List.length_take]
      omega
    have hfield : BitVec.ofNat 32 (payload.take len.toNat).length = len := by
      rw [hcut, BitVec.ofNat_toNat, BitVec.setWidth_eq]
    obtain ⟨_, _, -, heq⟩ := readMessage_frame hnone .clear type
      (show (payload.take len.toNat).length ≤ maxPayloadBytes by omega) []
    rw [frameBytes, hfield, List.append_nil] at heq
    rw [heq] at hread
    have hmsg : frameMessage (type, payload.take len.toNat) = msg := by simpa using hread
    have hsame : payload.take len.toNat = payload :=
      (congrArg Message.payload hmsg).trans hpayload
    rw [hsame] at hcut
    omega

/-- The writer's success is the reader's success exactly for the payloads within the
    reader's cap. -/
theorem writtenIsRead_iff_le (type : Byte) (payload : List Byte) :
    WrittenIsRead type payload ↔ payload.length ≤ maxPayloadBytes := by
  refine ⟨fun h => ?_, writtenIsRead_of_le type⟩
  by_contra hlen
  exact not_writtenIsRead_of_lt type (by omega) h

/-- An eval result one byte past the cap is written with success and lost. -/
theorem oversized_result_lost :
    ¬ WrittenIsRead 0x55 (List.replicate (maxPayloadBytes + 1) 0x20) := by
  apply not_writtenIsRead_of_lt
  rw [List.length_replicate]
  omega

end NomosRt.Ipc
