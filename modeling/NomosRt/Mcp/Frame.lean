/-
  NomosRt.Mcp.Frame

  The frame of an `evaluate` call: what `ipc_write` puts on the connection, and what the
  server's `read_message` and its reader of EDN make of it.

  `ipc_write` sends a payload of any size, and `read_message` refuses one above the cap.
  `frameCarries_iff` says that the frame carries the routed expression exactly when the
  payload is within the cap and the expression was stripped to it; a payload whose length
  wraps in the header is cut off, and nothing is read from it.
-/

import NomosRt.Mcp.Transport

namespace NomosRt.Mcp

open NomosRt.Lib NomosRt.Lib.EdnText NomosRt.Ipc

/-! ## Sizes -/

/-- The bytes `json_escape` writes as two. -/
def isEscaped (c : Byte) : Bool := c = 0x22 || c = 0x5C || c = 0x0A || c = 0x0D || c = 0x09

theorem length_jsonEscape (s : List Byte) :
    (jsonEscape s).length = s.length + s.countP isEscaped := by
  induction s with
  | nil => rfl
  | cons c s ih =>
      have hone : ∀ c : Byte, (jsonEscape [c]).length = 1 + [c].countP isEscaped := by decide
      have hcount : (c :: s).countP isEscaped = [c].countP isEscaped + s.countP isEscaped := by
        rw [← List.countP_append, List.singleton_append]
      rw [jsonEscape_cons, List.length_append, ih, hone, hcount, List.length_cons]
      omega

/-- The destination that the prefix of an expression names. -/
def routedTo : List Byte → String
  | 0x23 :: 0x76 :: _ => "vcvrack-tty"
  | 0x23 :: 0x6E :: _ => "nous"
  | _ => "fennel"

/-- The size of a payload with the routed expression. -/
def routedSize (expr : List Byte) : Nat :=
  31 + (routedTo expr).length + (routed expr).length + (routed expr).countP isEscaped

theorem destination_eq_routedTo {expr : List Byte} (h : PrefixServes expr) :
    (destination expr).1 = routedTo expr := by
  unfold PrefixServes at h
  cases hpre : unprefixed expr with
  | some rest =>
      rw [hpre] at h
      obtain ⟨b, hb, rfl⟩ := eq_of_unprefixed hpre
      cases rest with
      | nil => exact absurd rfl h
      | cons c rest => rcases hb with rfl | rfl | rfl <;> rfl
  | none =>
      have hno {b : Byte} {rest : List Byte} (hb : b = 0x76 ∨ b = 0x66 ∨ b = 0x6E) :
          expr ≠ 0x23 :: b :: rest := by
        rintro rfl
        rw [unprefixed, if_pos ⟨rfl, hb⟩] at hpre
        cases hpre
      unfold destination routedTo
      split <;> split <;> first | rfl | exact absurd rfl (hno (by decide))

theorem length_evalPayload {expr : List Byte} (h : PrefixServes expr) :
    (evalPayload expr).length = routedSize expr := by
  have hname : (ascii (routedTo expr)).length = (routedTo expr).length := by
    unfold routedTo
    split <;> rfl
  rw [evalPayload_eq, evalTail, (stripped_eq_routed_iff expr).mpr h, destination_eq_routedTo h]
  simp only [List.length_cons, List.length_append, hname, length_jsonEscape, routedSize,
    show (ascii ":dest").length = 5 from rfl, show (ascii ":").length = 1 from rfl,
    show (ascii ":payload").length = 8 from rfl,
    show (ascii " :id \"mcp\"\x7d").length = 11 from rfl]
  omega

/-! ## Writing -/

theorem sysWrite_sent {fd : WriteEnd} {buf : List Byte}
    (h : (sysWrite fd buf).1 = some buf.length) : (sysWrite fd buf).2.sent = fd.sent ++ buf := by
  obtain ⟨sched, sent, errno⟩ := fd
  cases sched with
  | nil => rfl
  | cons r sched =>
      cases r with
      | fail e => cases h
      | moved k =>
          have hk : buf.length ≤ k := by
            have hmin : min k buf.length = buf.length := Option.some.inj h
            omega
          show sent ++ buf.take k = sent ++ buf
          rw [List.take_of_length_le hk]

/-- What a successful `ipc_write` has put on the connection. -/
theorem ipcWrite_sent {fd : WriteEnd} {type : Byte} {payload : List Byte}
    (h : (ipcWrite fd type payload).1 = true) :
    (ipcWrite fd type payload).2.sent = fd.sent ++ frameBytes type payload := by
  set hdr := leBytes (swapMasked (BitVec.ofNat 32 payload.length)) ++ [type, 0, 0, 0] with hhdr
  have himage : hdr = (sentHeader type (BitVec.ofNat 32 payload.length)).image := by
    rw [hhdr, swapMasked_eq]
    rfl
  have hsplit : ipcWrite fd type payload =
      if (sysWrite fd hdr).1 ≠ some 8 then (false, (sysWrite fd hdr).2)
      else if payload.isEmpty then (true, (sysWrite fd hdr).2)
      else (decide ((sysWrite (sysWrite fd hdr).2 payload).1 = some payload.length),
        (sysWrite (sysWrite fd hdr).2 payload).2) := rfl
  rw [hsplit] at h ⊢
  by_cases hfirst : (sysWrite fd hdr).1 = some 8
  · have hsent : (sysWrite fd hdr).2.sent = fd.sent ++ hdr := sysWrite_sent hfirst
    rw [if_neg (not_not.mpr hfirst)] at h ⊢
    rw [frameBytes, ← himage, ← List.append_assoc, ← hsent]
    by_cases hempty : payload.isEmpty = true
    · rw [if_pos hempty, List.isEmpty_iff.mp hempty, List.append_nil]
    · rw [if_neg hempty] at h ⊢
      exact sysWrite_sent (of_decide_eq_true h)
  · rw [if_pos hfirst] at h
    cases h

/-! ## Reading -/

/-- A frame above the cap is refused, or its payload is cut off. -/
theorem readMessage_oversized {sched : List SysResult} (hb : Benign sched) (errno : Errno)
    (type : Byte) {payload : List Byte} (hlen : maxPayloadBytes < payload.length) :
    (readMessage ⟨sched, frameBytes type payload, errno⟩).1 = .error .frameTooLarge ∨
      ∃ p, p <+: payload ∧ p ≠ payload ∧
        (readMessage ⟨sched, frameBytes type payload, errno⟩).1 = .ok (frameMessage (type, p)) := by
  set len := BitVec.ofNat 32 payload.length with hlendef
  by_cases hcap : maxPayloadBytes < len.toNat
  · exact .inl (readMessage_tooLarge hb errno type hcap payload)
  · -- the length wrapped to one within the cap
    have hcut : (payload.take len.toNat).length = len.toNat := by
      rw [List.length_take]
      omega
    have hfield : BitVec.ofNat 32 (payload.take len.toNat).length = len := by
      rw [hcut, BitVec.ofNat_toNat, BitVec.setWidth_eq]
    have hframe : frameBytes type payload =
        frameBytes type (payload.take len.toNat) ++ payload.drop len.toNat := by
      rw [frameBytes, frameBytes, hfield, ← hlendef, List.append_assoc, List.take_append_drop]
    obtain ⟨_, _, -, heq⟩ := readMessage_frame hb errno type
      (show (payload.take len.toNat).length ≤ maxPayloadBytes by omega) (payload.drop len.toNat)
    refine .inr ⟨payload.take len.toNat, List.take_prefix _ _, fun hsame => ?_, ?_⟩
    · rw [hsame] at hcut
      omega
    · rw [hframe, heq]

/-- Whenever `handle_evaluate` has written its frame, the server reads a `msg_repl_eval` from
    it, with `v` under `:payload`, however its calls of `read` come back. -/
def FrameCarries (expr v : List Byte) : Prop :=
  ∀ (out : WriteEnd) (reads : List SysResult) (errno : Errno), out.sent = [] → Benign reads →
    (ipcWrite out kMsgReplEval (evalPayload expr)).1 = true →
    ∃ msg, (readMessage
        ⟨reads, (ipcWrite out kMsgReplEval (evalPayload expr)).2.sent, errno⟩).1 = .ok msg ∧
      msg.hdr.type = kMsgReplEval ∧ ReadsPayload msg.payload v

/-- The frame carries what the expression was stripped to, and that only within the cap. -/
theorem frameCarries_iff (expr v : List Byte) :
    FrameCarries expr v ↔ (evalPayload expr).length ≤ maxPayloadBytes ∧ v = stripped expr := by
  have hnone : Benign [] := fun r hr => absurd hr List.not_mem_nil
  refine ⟨fun h => ?_, ?_⟩
  · have hread := h ⟨[], [], .clear⟩ [] .clear rfl hnone
    have hwrite : (ipcWrite ⟨[], [], .clear⟩ kMsgReplEval (evalPayload expr)).1 = true := by
      rw [evalPayload_eq]
      exact decide_eq_true rfl
    obtain ⟨msg, hok, -, hpayload⟩ := hread hwrite
    rw [ipcWrite_sent hwrite, List.nil_append] at hok
    by_cases hlen : (evalPayload expr).length ≤ maxPayloadBytes
    · refine ⟨hlen, ?_⟩
      obtain ⟨_, _, -, heq⟩ := readMessage_frame hnone .clear kMsgReplEval hlen []
      rw [List.append_nil] at heq
      rw [heq] at hok
      obtain rfl := Except.ok.inj hok
      exact (readsPayload_iff expr v).mp hpayload
    · exfalso
      rcases readMessage_oversized hnone .clear kMsgReplEval (not_le.mp hlen) with
        hrefused | ⟨p, hp, hne, hcut⟩
      · rw [hrefused] at hok
        cases hok
      · rw [hcut] at hok
        obtain rfl := Except.ok.inj hok
        obtain ⟨m, hreads, -⟩ := hpayload
        exact not_reads_cut hp hne (.map m) hreads
  · rintro ⟨hlen, hv⟩ out reads errno hout hb hwrite
    obtain ⟨_, _, -, heq⟩ := readMessage_frame hb errno kMsgReplEval hlen []
    refine ⟨frameMessage (kMsgReplEval, evalPayload expr), ?_, rfl,
      (readsPayload_iff expr v).mpr hv⟩
    rw [ipcWrite_sent hwrite, hout, List.nil_append]
    rw [List.append_nil] at heq
    rw [heq]

end NomosRt.Mcp
