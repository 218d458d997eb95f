/-
  NomosRt.Mcp.Evaluate

  The `evaluate` tool of nomos-mcp (tools/nomos-mcp.cpp).

  The tool opens a connection of its own for each call, writes one `msg_repl_eval`
  frame and reads one frame back with its own reader: a single `read` for the
  header, then a loop for the payload.  It takes whatever frame comes first.  The
  server may push other frames on the connection at any time.

  `ReadEnd` and `WriteEnd` are the descriptors of `Ipc.Channel`.  The JSON-RPC
  response around the answer is `mcpReply` in `Mcp.Request`, and `Mcp.Call` says
  what a client reads from it.
-/

import NomosRt.Ipc.Channel
import NomosRt.Osc.Server

namespace NomosRt.Mcp

open NomosRt.Lib NomosRt.Ipc NomosRt.Osc

/-! ## System calls -/

/-- One `read` of at most `n` bytes; `none` is a return of -1, `some []` of 0. -/
def sysRead (fd : ReadEnd) (n : Nat) : Option (List Byte) × ReadEnd :=
  match fd.sched with
  | [] => (some (fd.inbox.take n), ⟨[], fd.inbox.drop n, fd.errno⟩)
  | .fail e :: sched => (none, ⟨sched, fd.inbox, e⟩)
  | .moved k :: sched =>
      (some (fd.inbox.take (min k n)), ⟨sched, fd.inbox.drop (min k n), fd.errno⟩)

/-- One `write`; `none` is a return of -1, else the number of bytes taken. -/
def sysWrite (fd : WriteEnd) (buf : List Byte) : Option Nat × WriteEnd :=
  match fd.sched with
  | [] => (some buf.length, ⟨[], fd.sent ++ buf, fd.errno⟩)
  | .fail e :: sched => (none, ⟨sched, fd.sent, e⟩)
  | .moved k :: sched => (some (min k buf.length), ⟨sched, fd.sent ++ buf.take k, fd.errno⟩)

/-! ## `ipc_write`, `ipc_read` -/

/-- `kMsgReplEval`. -/
def kMsgReplEval : Byte := 0x55

/-- `ipc_write`: one `write` for the header and one for the payload. -/
def ipcWrite (fd : WriteEnd) (type : Byte) (payload : List Byte) : Bool × WriteEnd :=
  let hdr := leBytes (swapMasked (BitVec.ofNat 32 payload.length)) ++ [type, 0, 0, 0]
  match sysWrite fd hdr with
  | (w, fd) =>
      if w ≠ some 8 then (false, fd)
      else if payload.isEmpty then (true, fd)
      else
        match sysWrite fd payload with
        | (w, fd) => (decide (w = some payload.length), fd)

/-- The payload loop of `ipc_read`, with `rem` bytes to go.  Every round but the last
    takes a byte, so `rem` rounds are enough. -/
def readLoop : Nat → ReadEnd → Nat → Option (List Byte) × ReadEnd
  | _, fd, 0 => (some [], fd)
  | 0, fd, _ + 1 => (none, fd)
  | fuel + 1, fd, rem + 1 =>
      match sysRead fd (rem + 1) with
      | (none, fd) => (none, fd)
      | (some [], fd) => (none, fd)
      | (some (b :: bs), fd) =>
          let (rest, fd) := readLoop fuel fd (rem + 1 - (bs.length + 1))
          (rest.map ((b :: bs) ++ ·), fd)

/-- `ipc_read`: the payload, empty for every failure, and the type. -/
def ipcRead (fd : ReadEnd) (outType : Byte) : List Byte × Byte × ReadEnd :=
  match sysRead fd 8 with
  | (none, fd) => ([], outType, fd)
  | (some hdr, fd) =>
      if hdr.length ≠ 8 then ([], outType, fd)
      else
        let plen := (swapMasked (loadWord hdr)).toNat
        let outType := hdr.getD 4 0
        if plen = 0 then ([], outType, fd)
        else
          match readLoop plen fd plen with
          | (none, fd) => ([], outType, fd)
          | (some payload, fd) => (payload, outType, fd)

/-! ## `handle_evaluate` -/

/-- `json_escape`. -/
def jsonEscape (s : List Byte) : List Byte :=
  s.flatMap fun c =>
    if c = 0x22 then [0x5C, 0x22]
    else if c = 0x5C then [0x5C, 0x5C]
    else if c = 0x0A then ascii "\\n"
    else if c = 0x0D then ascii "\\r"
    else if c = 0x09 then ascii "\\t"
    else [c]

/-- The destination and the expression behind the prefix. -/
def destination (expr : List Byte) : String × List Byte :=
  match expr with
  | 0x23 :: 0x76 :: c :: rest => ("vcvrack-tty", c :: rest)
  | 0x23 :: 0x66 :: c :: rest => ("fennel", c :: rest)
  | 0x23 :: 0x6E :: c :: rest => ("nous", c :: rest)
  | _ => ("fennel", expr)

/-- The EDN payload of the request. -/
def evalPayload (expression : List Byte) : List Byte :=
  let (dest, expr) := destination expression
  let expr := expr.dropWhile fun c => c = 0x20 ∨ c = 0x09
  ascii "\x7b:dest :" ++ ascii dest ++ ascii " :payload \"" ++ jsonEscape expr ++
    ascii "\" :id \"mcp\"\x7d"

/-- What the tool answers: `mcp_error`, or the text of the result's content. -/
inductive McpReply where
  | error (code : Int) (message : String)
  | text (resp : List Byte)
  deriving DecidableEq, Repr

/-- `handle_evaluate` on the connection `connect_kairos` returned, if any. -/
def handleEvaluate (conn : Option (WriteEnd × ReadEnd)) (expression : List Byte) : McpReply :=
  match conn with
  | none => .error (-32603) "cannot connect to kairos socket"
  | some (out, inp) =>
      match ipcWrite out kMsgReplEval (evalPayload expression) with
      | (false, _) => .error (-32603) "failed to send eval to kairos"
      | (true, _) =>
          -- `rtype` is read and never looked at
          let resp := (ipcRead inp 0).1
          if resp.isEmpty then .error (-32603) "no response from kairos" else .text resp

/-! ## Reading whole frames -/

/-- The stream is only split: every `read` returns at least a byte while there is one. -/
def Splits (sched : List SysResult) : Prop := ∀ r ∈ sched, ∃ k, 1 ≤ k ∧ r = .moved k

/-- The most bytes the first `read` may return. -/
def firstRead : List SysResult → Nat
  | .moved k :: _ => k
  | .fail _ :: _ => 0
  | [] => 8

/-- Under a split schedule a `read` takes some bytes off the front, at least one. -/
theorem sysRead_split {fd : ReadEnd} (hs : Splits fd.sched) {n : Nat} (hn : 1 ≤ n) :
    ∃ k fd', 1 ≤ k ∧ k ≤ n ∧ Splits fd'.sched ∧ sysRead fd n = (some (fd.inbox.take k), fd') ∧
      fd'.inbox = fd.inbox.drop k := by
  obtain ⟨sched, inbox, errno⟩ := fd
  cases sched with
  | nil => exact ⟨n, ⟨[], inbox.drop n, errno⟩, hn, le_refl n, hs, rfl, rfl⟩
  | cons r sched =>
      obtain ⟨k, hk, rfl⟩ := hs r (List.mem_cons_self ..)
      refine ⟨min k n, ⟨sched, inbox.drop (min k n), errno⟩, by omega, by omega, ?_, rfl, rfl⟩
      exact fun r' hr' => hs r' (List.mem_cons_of_mem _ hr')

/-- The payload loop takes exactly the payload. -/
theorem readLoop_spec (fuel : Nat) {fd : ReadEnd} (hs : Splits fd.sched) {rem : Nat}
    (hfuel : rem ≤ fuel) (hlen : rem ≤ fd.inbox.length) :
    (readLoop fuel fd rem).1 = some (fd.inbox.take rem) := by
  -- every round takes at least one byte of what is left
  induction fuel generalizing fd rem with
  | zero =>
      obtain rfl : rem = 0 := by omega
      rw [List.take_zero]
      rfl
  | succ fuel ih =>
      cases rem with
      | zero =>
          rw [List.take_zero]
          rfl
      | succ rem =>
          obtain ⟨k, fd', hk, hkn, hs', hread, hinbox⟩ :=
            sysRead_split hs (show 1 ≤ rem + 1 by omega)
          rw [readLoop, hread]
          have htake : (fd.inbox.take k).length = k := by
            rw [List.length_take]
            omega
          cases hbytes : fd.inbox.take k with
          | nil =>
              rw [hbytes, List.length_nil] at htake
              omega
          | cons b bs =>
              rw [hbytes, List.length_cons] at htake
              have hrest : (readLoop fuel fd' (rem + 1 - (bs.length + 1))).1 =
                  some (fd'.inbox.take (rem + 1 - (bs.length + 1))) := by
                refine ih hs' (by omega) ?_
                rw [hinbox, List.length_drop]
                omega
              have hsum : k + (rem + 1 - (bs.length + 1)) = rem + 1 := by omega
              simp only [hrest, Option.map_some]
              rw [← hbytes, hinbox, ← List.take_add, hsum]

/-- A header cut short by the first `read` ends the call with nothing. -/
theorem ipcRead_short {fd : ReadEnd} (hs : Splits fd.sched) (outType : Byte)
    (hshort : firstRead fd.sched < 8 ∨ fd.inbox.length < 8) : (ipcRead fd outType).1 = [] := by
  obtain ⟨sched, inbox, errno⟩ := fd
  have hread : ∃ bs fd', sysRead ⟨sched, inbox, errno⟩ 8 = (some bs, fd') ∧ bs.length ≠ 8 := by
    cases sched with
    | nil =>
        have hlen : inbox.length < 8 := hshort.resolve_left (by simp [firstRead])
        refine ⟨_, _, rfl, ?_⟩
        show (inbox.take 8).length ≠ 8
        rw [List.length_take]
        omega
    | cons r sched =>
        obtain ⟨k, hk, rfl⟩ := hs r (List.mem_cons_self ..)
        have hshort' : k < 8 ∨ inbox.length < 8 := hshort
        refine ⟨_, _, rfl, ?_⟩
        show (inbox.take (min k 8)).length ≠ 8
        rw [List.length_take]
        omega
  obtain ⟨bs, fd', heq, hne⟩ := hread
  simp only [ipcRead, heq, if_pos hne]

/-- The bytes of a frame: its header says how long its payload is. -/
theorem frame_header (type : Byte) {payload : List Byte} (hlen : payload.length < 2 ^ 32) :
    (swapMasked (loadWord (sentHeader type (BitVec.ofNat 32 payload.length)).image)).toNat =
      payload.length := by
  have hword := wordOf_byteOf (bswap32 (BitVec.ofNat 32 payload.length))
  show (swapMasked (wordOf _ _ _ _)).toNat = _
  rw [swapMasked_eq]
  simp only [sentHeader, hword]
  rw [bswap32_bswap32, BitVec.toNat_ofNat, Nat.mod_eq_of_lt hlen]

/-- With its header in one `read`, the first frame's payload is returned whole, whatever
    its type. -/
theorem ipcRead_frame {sched : List SysResult} (hs : Splits sched) (hfirst : 8 ≤ firstRead sched)
    (errno : Errno) (outType type : Byte) {payload : List Byte} (hlen : payload.length < 2 ^ 32)
    (rest : List Byte) :
    (ipcRead ⟨sched, frameBytes type payload ++ rest, errno⟩ outType).1 = payload := by
  set hdr := (sentHeader type (BitVec.ofNat 32 payload.length)).image with hhdr
  have hsplit : frameBytes type payload ++ rest = hdr ++ (payload ++ rest) := by
    rw [frameBytes, List.append_assoc]
  have hsize : hdr.length = 8 := rfl
  -- the first `read` is exactly the header
  obtain ⟨fd', hread, hs', hinbox⟩ : ∃ fd', sysRead ⟨sched, hdr ++ (payload ++ rest), errno⟩ 8 =
      (some hdr, fd') ∧ Splits fd'.sched ∧ fd'.inbox = payload ++ rest := by
    cases sched with
    | nil =>
        refine ⟨⟨[], payload ++ rest, errno⟩, ?_, hs, rfl⟩
        show (some ((hdr ++ (payload ++ rest)).take 8), _) = _
        rw [List.take_left' hsize, List.drop_left' hsize]
    | cons r sched =>
        obtain ⟨k, hk, rfl⟩ := hs r (List.mem_cons_self ..)
        simp only [firstRead] at hfirst
        have hmin : min k 8 = 8 := by omega
        refine ⟨⟨sched, payload ++ rest, errno⟩, ?_,
          fun r' hr' => hs r' (List.mem_cons_of_mem _ hr'), rfl⟩
        show (some ((hdr ++ (payload ++ rest)).take (min k 8)), _) = _
        rw [hmin, List.take_left' hsize, List.drop_left' hsize]
  have hplen : (swapMasked (loadWord hdr)).toNat = payload.length := frame_header type hlen
  rw [hsplit]
  simp only [ipcRead, hread, hsize, ne_eq, not_true_eq_false, if_false, hplen]
  by_cases hzero : payload.length = 0
  · rw [if_pos hzero, List.eq_nil_of_length_eq_zero hzero]
  · have hloop := readLoop_spec payload.length hs' (le_refl _)
      (show payload.length ≤ fd'.inbox.length by rw [hinbox, List.length_append]; omega)
    rw [hinbox, List.take_left] at hloop
    rw [if_neg hzero]
    generalize readLoop payload.length fd' payload.length = r at hloop ⊢
    obtain ⟨o, fd''⟩ := r
    have ho : o = some payload := hloop
    rw [ho]

/-! ## The reply among other frames -/

/-- The bytes of whole frames, one behind the other. -/
def stream (frames : List (Byte × List Byte)) : List Byte :=
  (frames.map fun f => frameBytes f.1 f.2).flatten

/-- The payload of the `msg_repl_eval` frame, if the server wrote one. -/
def replyOf (frames : List (Byte × List Byte)) : Option (List Byte) :=
  (frames.find? fun f => f.1 = kMsgReplEval).map Prod.snd

/-- What the tool answers when its request was sent and the server put `frames` on the
    connection. -/
def answer (sched : List SysResult) (errno : Errno) (frames : List (Byte × List Byte))
    (out : WriteEnd) (expression : List Byte) : McpReply :=
  handleEvaluate (some (out, ⟨sched, stream frames, errno⟩)) expression

/-- The answer is the reply's payload, or an error if there is no reply. -/
def AnswersCall (reply : McpReply) (frames : List (Byte × List Byte)) : Prop :=
  (∀ p, replyOf frames = some p → reply = .text p) ∧
    (replyOf frames = none → ∃ code message, reply = .error code message)

/-- The first frame, read whole, and what it must be: with a reply on the stream, a
    frame with the reply's payload, not empty, its header in one `read`; without one,
    nothing that could be taken for a reply. -/
def FirstFrameServes (sched : List SysResult) (frames : List (Byte × List Byte)) : Prop :=
  (∀ p, replyOf frames = some p →
    8 ≤ firstRead sched ∧ p ≠ [] ∧ frames.head?.map Prod.snd = some p) ∧
  (replyOf frames = none →
    firstRead sched < 8 ∨ frames = [] ∨ frames.head?.map Prod.snd = some [])

/-- What the tool answers: the payload of the first frame, or an error when there is
    none, when it is empty, or when the first `read` cuts its header. -/
theorem answer_eq {sched : List SysResult} (hs : Splits sched) (errno : Errno)
    {frames : List (Byte × List Byte)} (hlen : ∀ f ∈ frames, f.2.length < 2 ^ 32)
    {out : WriteEnd} {expression : List Byte}
    (hsend : (ipcWrite out kMsgReplEval (evalPayload expression)).1 = true) :
    answer sched errno frames out expression =
      if firstRead sched < 8 ∨ (frames.head?.map Prod.snd).getD [] = [] then
        .error (-32603) "no response from kairos"
      else .text ((frames.head?.map Prod.snd).getD []) := by
  have hresp : (ipcRead ⟨sched, stream frames, errno⟩ 0).1 =
      if firstRead sched < 8 then [] else (frames.head?.map Prod.snd).getD [] := by
    by_cases hshort : firstRead sched < 8
    · rw [if_pos hshort]
      exact ipcRead_short hs 0 (Or.inl hshort)
    · rw [if_neg hshort]
      -- no frame is an end of file in the header; of several, the first is read
      cases frames with
      | nil => exact ipcRead_short hs 0 (Or.inr (show 0 < 8 by omega))
      | cons f frames =>
          show (ipcRead ⟨sched, stream (f :: frames), errno⟩ 0).1 = f.2
          rw [stream, List.map_cons, List.flatten_cons]
          exact ipcRead_frame hs (by omega) errno 0 f.1 (hlen f (List.mem_cons_self ..)) _
  have hans : answer sched errno frames out expression =
      if (ipcRead ⟨sched, stream frames, errno⟩ 0).1.isEmpty then
        .error (-32603) "no response from kairos"
      else .text (ipcRead ⟨sched, stream frames, errno⟩ 0).1 := by
    simp only [answer, handleEvaluate]
    -- the write succeeded, so its result can be any pair with `true`
    generalize ipcWrite out kMsgReplEval (evalPayload expression) = r at hsend ⊢
    obtain ⟨b, fd⟩ := r
    have hb : b = true := hsend
    rw [hb]
  rw [hans, hresp]
  by_cases hshort : firstRead sched < 8
  · rw [if_pos hshort, if_pos (Or.inl hshort), if_pos List.isEmpty_nil]
  · rw [if_neg hshort]
    by_cases hnil : (frames.head?.map Prod.snd).getD [] = []
    · rw [if_pos (Or.inr hnil), hnil, if_pos List.isEmpty_nil]
    · rw [if_neg (not_or.mpr ⟨hshort, hnil⟩), if_neg (by simpa using hnil)]

/-- The tool answers a call with the reply to it exactly when the first frame is that
    reply and its header comes in one `read`, or when nothing is read at all and there
    is no reply. -/
theorem answersCall_iff (sched : List SysResult) (errno : Errno)
    (frames : List (Byte × List Byte)) (out : WriteEnd) (expression : List Byte)
    (hs : Splits sched) (hlen : ∀ f ∈ frames, f.2.length < 2 ^ 32)
    (hsend : (ipcWrite out kMsgReplEval (evalPayload expression)).1 = true) :
    AnswersCall (answer sched errno frames out expression) frames ↔
      FirstFrameServes sched frames := by
  have hans := answer_eq hs errno hlen hsend
  cases frames with
  | nil =>
      -- no frame: no reply, and an error
      have herr : answer sched errno [] out expression =
          .error (-32603) "no response from kairos" := hans.trans (if_pos (Or.inr rfl))
      rw [herr]
      simp [AnswersCall, FirstFrameServes, replyOf]
  | cons f frames =>
      by_cases hc : firstRead sched < 8 ∨ f.2 = []
      · -- the first frame is not read, or is empty: an error
        have herr : answer sched errno (f :: frames) out expression =
            .error (-32603) "no response from kairos" := hans.trans (if_pos hc)
        rw [herr]
        constructor
        · rintro ⟨hsome, -⟩
          refine ⟨fun p hp => absurd (hsome p hp) (by simp), fun _ => ?_⟩
          exact hc.imp id fun hnil => Or.inr (congrArg some hnil)
        · rintro ⟨hsome, -⟩
          refine ⟨fun p hp => ?_, fun _ => ⟨_, _, rfl⟩⟩
          obtain ⟨hfull, hne, hhead⟩ := hsome p hp
          have hsame : f.2 = p := Option.some.inj hhead
          exact absurd hc (not_or.mpr ⟨by omega, hsame ▸ hne⟩)
      · -- the payload of the first frame is the answer
        have htext : answer sched errno (f :: frames) out expression = .text f.2 :=
          hans.trans (if_neg hc)
        obtain ⟨hfull, hne⟩ := not_or.mp hc
        rw [htext]
        constructor
        · rintro ⟨hsome, hnone⟩
          refine ⟨fun p hp => ?_, fun hno => ?_⟩
          · have hsame : f.2 = p := McpReply.text.inj (hsome p hp)
            exact ⟨by omega, hsame ▸ hne, congrArg some hsame⟩
          · obtain ⟨code, message, h⟩ := hnone hno
            exact absurd h (by simp)
        · rintro ⟨hsome, hnone⟩
          refine ⟨fun p hp => ?_, fun hno => ?_⟩
          · rw [Option.some.inj (hsome p hp).2.2]
          · rcases hnone hno with hshort | hnil | hempty
            · exact absurd hshort hfull
            · exact absurd hnil (by simp)
            · exact absurd (Option.some.inj hempty) hne

/-! ## A tick before the reply -/

/-- A pushed tick, then the reply to the call. -/
def tickThenReply : List (Byte × List Byte) :=
  [(0x50, ascii "\x7b:beat 1.0 :tick-n 24\x7d"), (0x55, ascii "\x7b:id \"mcp\" :result 3\x7d")]

/-- The reply alone. -/
def replyOnly : List (Byte × List Byte) := [(0x55, ascii "\x7b:id \"mcp\" :result 3\x7d")]

/-- Without pushed frames, and with the header in one piece, the payload may come in
    single bytes. -/
theorem answersCall_replyOnly :
    AnswersCall (answer [.moved 8, .moved 1, .moved 1] .clear replyOnly ⟨[], [], .clear⟩
      (ascii "(+ 1 2)")) replyOnly := by
  have hsplits : Splits [.moved 8, .moved 1, .moved 1] := by
    intro r hr
    simp only [List.mem_cons, List.not_mem_nil, or_false] at hr
    rcases hr with rfl | rfl | rfl
    · exact ⟨8, by omega, rfl⟩
    · exact ⟨1, by omega, rfl⟩
    · exact ⟨1, by omega, rfl⟩
  have hserves : FirstFrameServes [.moved 8, .moved 1, .moved 1] replyOnly := by
    refine ⟨fun p hp => ⟨le_refl 8, ?_, hp⟩, fun hno => absurd hno (by decide)⟩
    rw [← Option.some.inj hp]
    decide
  exact (answersCall_iff _ .clear replyOnly _ _ hsplits (by decide) rfl).mpr hserves

/-- The tool answers the call with the tick. -/
theorem tick_taken_for_reply :
    answer [] .clear tickThenReply ⟨[], [], .clear⟩ (ascii "(+ 1 2)") =
        .text (ascii "\x7b:beat 1.0 :tick-n 24\x7d") ∧
      ¬ AnswersCall (answer [] .clear tickThenReply ⟨[], [], .clear⟩ (ascii "(+ 1 2)"))
        tickThenReply := by
  have hans : answer [] .clear tickThenReply ⟨[], [], .clear⟩ (ascii "(+ 1 2)") =
      .text (ascii "\x7b:beat 1.0 :tick-n 24\x7d") := by
    refine (answer_eq (by simp [Splits]) .clear (by decide) rfl).trans (if_neg ?_)
    decide
  refine ⟨hans, fun hanswers => ?_⟩
  have hreply := hanswers.1 _ (show replyOf tickThenReply = some _ from rfl)
  rw [hans] at hreply
  exact absurd (McpReply.text.inj hreply) (by decide)

end NomosRt.Mcp
