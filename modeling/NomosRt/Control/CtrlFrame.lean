/-
  NomosRt.Control.CtrlFrame

  The in-process frame decoder against the socket's.

  `dispatch_ctrl_frame` takes a frame apart by hand where `handle_connection` uses
  `read_message`; both hand the result to `dispatch_message`, and a handler cannot
  tell which path a message came from.  Here every access to the buffer is checked,
  so that an access outside it would show as a fault.
-/

import NomosRt.Control.Dispatch

namespace NomosRt.Control

open NomosRt.Lib NomosRt.Ipc NomosRt.Osc

/-! ## The decoder -/

/-- The arguments of `dispatch_ctrl_frame`: the bytes at a non-null `buf` and
    `total_len`. -/
structure CtrlBuf where
  bytes : List Byte
  totalLen : BitVec 32
  length_eq : bytes.length = totalLen.toNat

/-- An access outside the buffer. -/
inductive Fault where
  | outOfBounds
  deriving DecidableEq, Repr

/-- The `n` bytes at `buf + off`. -/
def CtrlBuf.bytesAt (buf : CtrlBuf) (off n : Nat) : Except Fault (List Byte) :=
  if off + n ≤ buf.bytes.length then .ok ((buf.bytes.drop off).take n)
  else .error .outOfBounds

/-- A value-initialised `header`. -/
def headerInit : Header := ⟨0, 0, (0, 0, 0)⟩

/-- The message `dispatch_ctrl_frame` hands to `dispatch_message`; `none` where it
    returns without a call. -/
def ctrlFrameMessage : Option CtrlBuf → Except Fault (Option Message)
  | none => .ok none
  | some buf =>
      if buf.totalLen.toNat < headerSize then .ok none
      else
        (buf.bytesAt 0 4).bind fun payloadLenBe =>
        let payloadLen := bswap32 (loadWord payloadLenBe)
        (buf.bytesAt 4 1).bind fun msgType =>
        if payloadLen.toNat > buf.totalLen.toNat - headerSize then .ok none
        else
          (buf.bytesAt headerSize payloadLen.toNat).bind fun payload =>
          -- of the header only the type is assigned
          .ok (some ⟨{ headerInit with type := msgType.headD 0 }, payload⟩)

/-! ## What it decodes -/

/-- The payload length a buffer declares. -/
def CtrlBuf.declaredLen (buf : CtrlBuf) : BitVec 32 := bswap32 (loadWord buf.bytes)

/-- The buffer holds a header and the payload it declares. -/
def CtrlBuf.HoldsFrame (buf : CtrlBuf) : Prop :=
  headerSize ≤ buf.bytes.length ∧ headerSize + buf.declaredLen.toNat ≤ buf.bytes.length

instance (buf : CtrlBuf) : Decidable buf.HoldsFrame := inferInstanceAs (Decidable (_ ∧ _))

/-- The first eight bytes, one by one. -/
theorem exists_header {bs : List Byte} (h : headerSize ≤ bs.length) :
    ∃ b0 b1 b2 b3 t r0 r1 r2 rest, bs = b0 :: b1 :: b2 :: b3 :: t :: r0 :: r1 :: r2 :: rest := by
  match bs, h with
  | b0 :: b1 :: b2 :: b3 :: t :: r0 :: r1 :: r2 :: rest, _ =>
      exact ⟨b0, b1, b2, b3, t, r0, r1, r2, rest, rfl⟩

/-- The header `read_message` would take from the same bytes, before the swap. -/
theorem ofImage_take {bs : List Byte} (h : headerSize ≤ bs.length) (rest : List Byte) :
    (Header.ofImage ((bs ++ rest).take headerSize)).payloadLen = loadWord bs ∧
      (Header.ofImage ((bs ++ rest).take headerSize)).type = bs.getD 4 0 := by
  obtain ⟨b0, b1, b2, b3, t, r0, r1, r2, tail, rfl⟩ := exists_header h
  exact ⟨rfl, rfl⟩

/-- Past the first test the two header reads are inside the buffer. -/
theorem ctrlFrameMessage_header {buf : CtrlBuf} (h : headerSize ≤ buf.bytes.length) :
    ctrlFrameMessage (some buf) =
      if buf.declaredLen.toNat > buf.totalLen.toNat - headerSize then .ok none
      else
        (buf.bytesAt headerSize buf.declaredLen.toNat).bind fun payload =>
          .ok (some ⟨{ headerInit with type := buf.bytes.getD 4 0 }, payload⟩) := by
  have hlen := buf.length_eq
  have hsize : headerSize = 8 := rfl
  obtain ⟨b0, b1, b2, b3, t, r0, r1, r2, tail, hbs⟩ := exists_header h
  have hword : loadWord ((buf.bytes.drop 0).take 4) = loadWord buf.bytes := by
    rw [hbs]
    rfl
  have htype : ((buf.bytes.drop 4).take 1).headD 0 = buf.bytes.getD 4 0 := by
    rw [hbs]
    rfl
  have hread0 : buf.bytesAt 0 4 = .ok ((buf.bytes.drop 0).take 4) := if_pos (by omega)
  have hread4 : buf.bytesAt 4 1 = .ok ((buf.bytes.drop 4).take 1) := if_pos (by omega)
  rw [ctrlFrameMessage, if_neg (by omega), hread0, hread4]
  show (if (bswap32 (loadWord ((buf.bytes.drop 0).take 4))).toNat > _ then _ else _) = _
  rw [hword, htype]
  rfl

/-- A buffer without a whole frame is dropped, and no access leaves it. -/
theorem ctrlFrameMessage_short {buf : CtrlBuf} (h : ¬ buf.HoldsFrame) :
    ctrlFrameMessage (some buf) = .ok none := by
  have hlen := buf.length_eq
  by_cases hhdr : buf.totalLen.toNat < headerSize
  · rw [ctrlFrameMessage, if_pos hhdr]
  · have hroom : headerSize ≤ buf.bytes.length := by omega
    have hlong : buf.declaredLen.toNat > buf.totalLen.toNat - headerSize := by
      by_contra hle
      exact h ⟨hroom, by omega⟩
    rw [ctrlFrameMessage_header hroom, if_pos hlong]

/-- A whole frame is handed on with its type and payload, under a header whose
    length was never set. -/
theorem ctrlFrameMessage_whole {buf : CtrlBuf} (h : buf.HoldsFrame) :
    ctrlFrameMessage (some buf) =
      .ok (some ⟨⟨0, buf.bytes.getD 4 0, (0, 0, 0)⟩,
        (buf.bytes.drop headerSize).take buf.declaredLen.toNat⟩) := by
  have hlen := buf.length_eq
  obtain ⟨hhdr, hroom⟩ := h
  rw [ctrlFrameMessage_header hhdr, if_neg (by omega), CtrlBuf.bytesAt, if_pos hroom]
  simp only [Except.bind, headerInit]

/-- The pushes of `dispatch_ctrl_frame` are those of `dispatch_message` on the decoded
    message. -/
theorem dispatchCtrlFrame_eq {D : Type*} [CDouble D] (cfg : Config D) (buf : CtrlBuf)
    (msg : Option Message) (h : ctrlFrameMessage (some buf) = .ok msg) :
    dispatchCtrlFrame cfg buf.bytes =
      msg.elim [] fun msg => dispatchMessage cfg msg.hdr.type msg.payload := by
  by_cases hframe : buf.HoldsFrame
  · rw [ctrlFrameMessage_whole hframe, Except.ok.injEq] at h
    obtain ⟨hhdr, hroom⟩ := hframe
    rw [CtrlBuf.declaredLen] at hroom
    have hfits : ¬ (bswap32 (loadWord buf.bytes)).toNat > buf.bytes.length - headerSize := by
      omega
    rw [dispatchCtrlFrame, if_neg (by omega), ← h]
    simp only [if_neg hfits, Option.elim_some, CtrlBuf.declaredLen]
  · rw [ctrlFrameMessage_short hframe, Except.ok.injEq] at h
    rw [dispatchCtrlFrame, ← h, Option.elim_none]
    by_cases hhdr : buf.bytes.length < headerSize
    · rw [if_pos hhdr]
    · have hlong : (bswap32 (loadWord buf.bytes)).toNat > buf.bytes.length - headerSize := by
        by_contra hle
        refine hframe ⟨by omega, ?_⟩
        rw [CtrlBuf.declaredLen]
        omega
      simp only [if_neg hhdr, if_pos hlong]

/-! ## Agreement with `read_message` -/

/-- What the two decoders are expected to agree on for one buffer. -/
structure DecodersAgree (buf : CtrlBuf) : Prop where
  /-- Only bytes of the buffer are read. -/
  inBounds : ∃ msg, ctrlFrameMessage (some buf) = .ok msg
  /-- Nothing is dispatched without a whole frame. -/
  dropped : ¬ buf.HoldsFrame → ctrlFrameMessage (some buf) = .ok none
  /-- A whole frame within the cap gives the message `read_message` returns on any
      stream that starts with the same bytes. -/
  same : buf.HoldsFrame → buf.declaredLen.toNat ≤ maxPayloadBytes →
    ∀ (reads : List SysResult) (errno : Errno) (rest : List Byte), Benign reads →
      ∃ msg msg', ctrlFrameMessage (some buf) = .ok (some msg) ∧
        (readMessage ⟨reads, buf.bytes ++ rest, errno⟩).1 = .ok msg' ∧
        msg.hdr.payloadLen = msg'.hdr.payloadLen ∧ msg.hdr.type = msg'.hdr.type ∧
        msg.payload = msg'.payload
  /-- The header of a dispatched message carries the size of the payload. -/
  sized : ∀ msg, ctrlFrameMessage (some buf) = .ok (some msg) →
    msg.hdr.payloadLen.toNat = msg.payload.length

/-- The message `read_message` returns on a stream that starts with a whole frame. -/
theorem readMessage_ctrlBuf {buf : CtrlBuf} (h : buf.HoldsFrame)
    (hcap : buf.declaredLen.toNat ≤ maxPayloadBytes) {reads : List SysResult}
    (hr : Benign reads) (errno : Errno) (rest : List Byte) :
    ∃ msg, (readMessage ⟨reads, buf.bytes ++ rest, errno⟩).1 = .ok msg ∧
      msg.hdr.payloadLen = buf.declaredLen ∧ msg.hdr.type = buf.bytes.getD 4 0 ∧
      msg.payload = (buf.bytes.drop headerSize).take buf.declaredLen.toNat := by
  obtain ⟨hhdr, hroom⟩ := h
  obtain ⟨hlen, htype⟩ := ofImage_take hhdr rest
  have hdecl : bswap32 (Header.ofImage ((buf.bytes ++ rest).take headerSize)).payloadLen =
      buf.declaredLen := by
    rw [hlen, CtrlBuf.declaredLen]
  obtain ⟨_, _, -, heq⟩ := readMessage_whole hr errno rfl hdecl hcap (by
    rw [List.length_append]
    omega)
  refine ⟨_, congrArg Prod.fst heq, rfl, htype, ?_⟩
  -- the payload ends before the bytes that follow the frame
  show ((buf.bytes ++ rest).drop headerSize).take _ = _
  rw [List.drop_append_of_le_length hhdr, List.take_append_of_le_length]
  rw [List.length_drop]
  omega

/-- With an empty payload the unset length happens to be the right one. -/
theorem decodersAgree_of_empty {buf : CtrlBuf} (h : buf.HoldsFrame)
    (hempty : buf.declaredLen = 0) : DecodersAgree buf := by
  have hdecode := ctrlFrameMessage_whole h
  refine ⟨⟨_, hdecode⟩, fun hno => absurd h hno, fun _ hcap reads errno rest hr => ?_, ?_⟩
  · obtain ⟨msg', hread, hlen, htype, hpayload⟩ := readMessage_ctrlBuf h hcap hr errno rest
    exact ⟨_, msg', hdecode, hread, by rw [hlen, hempty], by rw [htype], by rw [hpayload]⟩
  · intro msg hmsg
    rw [hdecode, Except.ok.injEq, Option.some.injEq] at hmsg
    rw [← hmsg, hempty]
    rfl

theorem decodersAgree_of_short {buf : CtrlBuf} (h : ¬ buf.HoldsFrame) : DecodersAgree buf := by
  have hdrop := ctrlFrameMessage_short h
  refine ⟨⟨_, hdrop⟩, fun _ => hdrop, fun hyes => absurd hyes h, ?_⟩
  intro msg hmsg
  rw [hdrop, Except.ok.injEq] at hmsg
  exact absurd hmsg (by simp)

/-- Any payload byte makes the header of the in-process message wrong. -/
theorem not_decodersAgree {buf : CtrlBuf} (h : buf.HoldsFrame) (hlen : buf.declaredLen ≠ 0) :
    ¬ DecodersAgree buf := by
  intro hagree
  have hroom := h.2
  have hsize : 0 = ((buf.bytes.drop headerSize).take buf.declaredLen.toNat).length :=
    hagree.sized _ (ctrlFrameMessage_whole h)
  have hzero : buf.declaredLen.toNat = 0 := by
    rw [List.length_take, List.length_drop] at hsize
    omega
  exact hlen (BitVec.eq_of_toNat_eq (by simpa using hzero))

/-- The in-process decoder agrees with the socket's exactly on the buffers that hold
    no whole frame or declare an empty payload; a message from the socket always
    carries the size of its payload. -/
theorem decodersAgree_iff (buf : CtrlBuf) :
    (DecodersAgree buf ↔ (buf.HoldsFrame → buf.declaredLen = 0)) ∧
      ∀ (fd : ReadEnd) (msg : Message), (readMessage fd).1 = .ok msg →
        msg.hdr.payloadLen.toNat = msg.payload.length := by
  refine ⟨⟨fun hagree hframe => ?_, fun h => ?_⟩, fun fd msg => readMessage_sized⟩
  · by_contra hlen
    exact not_decodersAgree hframe hlen hagree
  · by_cases hframe : buf.HoldsFrame
    · exact decodersAgree_of_empty hframe (h hframe)
    · exact decodersAgree_of_short hframe

/-- A note-on frame whose payload is the two bytes of an empty map. -/
def emptyMapFrame : CtrlBuf := ⟨[0, 0, 0, 2, 0x41, 0, 0, 0, 0x7B, 0x7D], 10, rfl⟩

/-- The two-byte payload of this frame arrives under a header that says zero. -/
theorem emptyMapFrame_disagree : ¬ DecodersAgree emptyMapFrame :=
  not_decodersAgree (by decide) (by decide)

end NomosRt.Control
