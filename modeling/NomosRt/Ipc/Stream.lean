/-
  NomosRt.Ipc.Stream

  The frames of a byte stream.

  Which frames a stream holds is a matter of its bytes alone: `streamFrames` cuts it at
  the lengths its headers declare, up to the first header that is cut short, declares
  more than the cap or has less behind it than it declares.  Whatever the kernel does, a
  message that `read_message` returns is the next of these frames; with a kernel that
  only splits and interrupts transfers it returns every one of them.
-/

import NomosRt.Ipc.Channel

namespace NomosRt.Ipc

open NomosRt.Lib

/-! ## Cutting -/

/-- The length that the header at the front declares. -/
def declaredLen (bytes : List Byte) : Nat :=
  (bswap32 (Header.ofImage (bytes.take headerSize)).payloadLen).toNat

/-- The frame at the front, and what is behind it. -/
def nextFrame (bytes : List Byte) : Option ((Byte × List Byte) × List Byte) :=
  if headerSize ≤ bytes.length ∧ declaredLen bytes ≤ maxPayloadBytes ∧
      headerSize + declaredLen bytes ≤ bytes.length then
    some (((Header.ofImage (bytes.take headerSize)).type,
      (bytes.drop headerSize).take (declaredLen bytes)), bytes.drop (headerSize + declaredLen bytes))
  else none

theorem nextFrame_shorter {bytes rest : List Byte} {f : Byte × List Byte}
    (h : nextFrame bytes = some (f, rest)) : rest.length < bytes.length := by
  unfold nextFrame at h
  split at h
  · next hc =>
      cases h
      have hpos : 0 < headerSize := by decide
      rw [List.length_drop]
      omega
  · cases h

/-- The frames of a stream. -/
def streamFrames (bytes : List Byte) : List (Byte × List Byte) :=
  match _h : nextFrame bytes with
  | some (f, rest) => f :: streamFrames rest
  | none => []
termination_by bytes.length
decreasing_by exact nextFrame_shorter _h

theorem streamFrames_some {bytes rest : List Byte} {f : Byte × List Byte}
    (h : nextFrame bytes = some (f, rest)) : streamFrames bytes = f :: streamFrames rest := by
  rw [streamFrames]
  split
  · next f' rest' h' =>
      rw [h] at h'
      cases h'
      rfl
  · next h' =>
      rw [h] at h'
      cases h'

theorem streamFrames_none {bytes : List Byte} (h : nextFrame bytes = none) :
    streamFrames bytes = [] := by
  rw [streamFrames]
  split
  · next f' rest' h' =>
      rw [h] at h'
      cases h'
  · rfl

/-! ## Reading -/

/-- A successful `read_exact` has taken the front of the stream, whatever the kernel did. -/
theorem readExact_took {sched : List SysResult} {errno : Errno} {inbox buf : List Byte} {rem : Nat}
    {fd : ReadEnd} (h : readExact sched errno inbox rem = (some buf, fd)) :
    rem ≤ inbox.length ∧ buf = inbox.take rem ∧ fd.inbox = inbox.drop rem := by
  induction sched generalizing errno inbox buf rem with
  | nil =>
      cases rem with
      | zero =>
          cases h
          simp
      | succ rem =>
          rw [readExact] at h
          split at h
          · cases h
          · next hlen =>
              cases h
              exact ⟨by omega, rfl, rfl⟩
  | cons r sched ih =>
      cases rem with
      | zero =>
          cases h
          simp
      | succ rem =>
          cases r with
          | fail e =>
              rw [readExact] at h
              split at h
              · exact ih h
              · cases h
          | moved k =>
              simp only [readExact] at h
              split at h
              · cases h
              · simp only [Prod.mk.injEq, Option.map_eq_some_iff] at h
                obtain ⟨⟨tail, htail, rfl⟩, hfd⟩ := h
                obtain ⟨hlen, hbuf, hrest⟩ := ih (Prod.ext htail hfd)
                set r := min k (min (rem + 1) inbox.length) with hr
                have hsum : r + (rem + 1 - r) = rem + 1 := by omega
                rw [List.length_drop] at hlen
                refine ⟨by omega, ?_, ?_⟩
                · rw [hbuf, ← List.take_add, hsum]
                · rw [hrest, List.drop_drop, hsum]

/-- A message that is returned is the frame at the front of the stream. -/
theorem readMessage_took {fd fd' : ReadEnd} {msg : Message}
    (h : readMessage fd = (.ok msg, fd')) :
    nextFrame fd.inbox = some ((msg.hdr.type, msg.payload), fd'.inbox) := by
  unfold readMessage at h
  split at h
  · cases h
  · next buf fd₁ hhdr =>
      obtain ⟨hlen₁, rfl, hrest₁⟩ := readExact_took hhdr
      dsimp only at h
      split at h
      · cases h
      · next hcap =>
          split at h
          · next hzero =>
              cases h
              have hdecl : declaredLen fd.inbox = 0 := hzero
              rw [nextFrame, if_pos (by omega), hdecl, Nat.add_zero, hrest₁, List.take_zero]
          · split at h
            · cases h
            · next payload fd₂ hpay =>
                cases h
                obtain ⟨hlen₂, rfl, hrest₂⟩ := readExact_took hpay
                have hdecl : (bswap32 (Header.ofImage (fd.inbox.take headerSize)).payloadLen).toNat =
                    declaredLen fd.inbox := rfl
                rw [hdecl, hrest₁, List.length_drop] at hlen₂
                rw [hdecl] at hcap
                rw [nextFrame, if_pos (by omega), hrest₂, hrest₁, hdecl, List.drop_drop]

/-- With a benign schedule the frame at the front is returned. -/
theorem readMessage_next {sched : List SysResult} (hb : Benign sched) (errno : Errno)
    {inbox rest : List Byte} {f : Byte × List Byte} (h : nextFrame inbox = some (f, rest)) :
    ∃ msg fd', readMessage ⟨sched, inbox, errno⟩ = (.ok msg, fd') ∧ Benign fd'.sched ∧
      (msg.hdr.type, msg.payload) = f ∧ fd'.inbox = rest := by
  have hc : headerSize ≤ inbox.length ∧ declaredLen inbox ≤ maxPayloadBytes ∧
      headerSize + declaredLen inbox ≤ inbox.length := by
    by_contra hc
    rw [nextFrame, if_neg hc] at h
    cases h
  obtain ⟨sched', errno', hb', heq⟩ := readMessage_whole hb errno rfl rfl hc.2.1 hc.2.2
  refine ⟨_, _, heq, hb', ?_⟩
  have htook := readMessage_took heq
  rw [h] at htook
  cases htook
  exact ⟨rfl, rfl⟩

/-! ## Writing -/

theorem nextFrame_frameBytes (type : Byte) {payload : List Byte}
    (hlen : payload.length ≤ maxPayloadBytes) (rest : List Byte) :
    nextFrame (frameBytes type payload ++ rest) = some ((type, payload), rest) := by
  have hnone : Benign [] := fun r hr => absurd hr List.not_mem_nil
  obtain ⟨sched, errno, -, hread⟩ := readMessage_frame hnone .clear type hlen rest
  exact readMessage_took hread

/-- A stream of written frames is cut into these frames. -/
theorem streamFrames_frameBytes {frames : List (Byte × List Byte)}
    (hlen : ∀ f ∈ frames, f.2.length ≤ maxPayloadBytes) (rest : List Byte) :
    streamFrames ((frames.map fun f => frameBytes f.1 f.2).flatten ++ rest) =
      frames ++ streamFrames rest := by
  induction frames with
  | nil => rfl
  | cons f frames ih =>
      rw [List.map_cons, List.flatten_cons, List.append_assoc,
        streamFrames_some (nextFrame_frameBytes f.1 (hlen f (List.mem_cons_self ..)) _),
        ih fun g hg => hlen g (List.mem_cons_of_mem _ hg)]
      rfl

end NomosRt.Ipc
