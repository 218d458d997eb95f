/-
  NomosRt.Mcp.Stdio

  The main loop of nomos-mcp on its two streams (tools/nomos-mcp.cpp): `mcp_read`,
  `mcp_write`, the texts of `initialize` and `tools/list`, and `main`.

  A message is a block of headers up to a blank line and as many bytes as its
  `Content-Length` says.  The header block ends at the first `\r\n\r\n` or `\n\n`, and
  of its text only the first `Content-Length:` counts.  The loop stops at the first
  message that is cut off, or whose length is missing or not positive.

  `main_answers_in_order`: whatever else stands in the headers, each message is met
  with at most one answer, in order, and a reader of the same framing finds the
  answers in the output.  A JSON message whose method and id are first met where they
  belong is answered under its own id; of other texts the answer carries what
  `json_id_raw` takes for the id.

  The i-th connection to the socket is a parameter; the arguments of `main` are left
  out.
-/

import Mathlib.Data.List.Infix
import NomosRt.Lib.Decimal
import NomosRt.Mcp.Call

namespace NomosRt.Mcp

open NomosRt.Lib NomosRt.Lib.JsonText NomosRt.Ipc

/-! ## Framing -/

/-- The tests for the end of the headers. -/
def endsHeader (headerBuf : List Byte) : Bool :=
  [0x0D, 0x0A, 0x0D, 0x0A].isSuffixOf headerBuf || [0x0A, 0x0A].isSuffixOf headerBuf

/-- The loop of `mcp_read` over `fgetc`; none at the end of the input. -/
def readHeader (headerBuf : List Byte) : List Byte → Option (List Byte × List Byte)
  | [] => none
  | c :: rest =>
      if endsHeader (headerBuf ++ [c]) then some (headerBuf ++ [c], rest)
      else readHeader (headerBuf ++ [c]) rest

/-- `content_length` behind the loop. -/
def contentLength (headerBuf : List Byte) : Int :=
  match find (ascii "Content-Length:") headerBuf with
  | none => -1
  | some pos => atoi (headerBuf.drop (pos + 15))

/-- `mcp_read`: the body, empty where there is none, and what is left of the input. -/
def mcpRead (input : List Byte) : List Byte × List Byte :=
  match readHeader [] input with
  | none => ([], [])
  | some (headerBuf, rest) =>
      let n := contentLength headerBuf
      if n ≤ 0 then ([], rest)
      -- `fread` comes back short
      else if rest.length < n.toNat then ([], [])
      else (rest.take n.toNat, rest.drop n.toNat)

/-- `mcp_write`. -/
def mcpWrite (body : List Byte) : List Byte :=
  ascii "Content-Length: " ++ decimal body.length ++ ascii "\r\n\r\n" ++ body

theorem readHeader_length {buf input header rest : List Byte}
    (h : readHeader buf input = some (header, rest)) : rest.length < input.length := by
  induction input generalizing buf with
  | nil => cases h
  | cons c input ih =>
      rw [readHeader] at h
      split at h
      · cases h
        exact Nat.lt_succ_self _
      · exact Nat.lt_succ_of_lt (ih h)

/-- A message takes bytes off the input. -/
theorem length_mcpRead_lt {input : List Byte} (h : (mcpRead input).1 ≠ []) :
    (mcpRead input).2.length < input.length := by
  unfold mcpRead at h ⊢
  cases hread : readHeader [] input with
  | none =>
      rw [hread] at h
      exact absurd rfl h
  | some read =>
      obtain ⟨header, rest⟩ := read
      have hlt := readHeader_length hread
      rw [hread] at h
      dsimp only at h ⊢
      split_ifs at h ⊢ with hpos hshort
      · exact absurd rfl h
      · exact absurd rfl h
      · rw [List.length_drop]
        omega

/-- The bodies `mcp_read` returns until it returns none. -/
def messages (input : List Byte) : List (List Byte) :=
  if _hbody : (mcpRead input).1 = [] then []
  else (mcpRead input).1 :: messages (mcpRead input).2
termination_by input.length
decreasing_by exact length_mcpRead_lt _hbody

/-! ## The main loop -/

/-- `k_tool_schema`. -/
def kToolSchema : List Byte :=
  (String.toUTF8 ("\x7b\n  \"name\": \"evaluate\",\n" ++
    "  \"description\": \"Evaluate an expression in the nomos-rt runtime via kairos IPC. Prefix: " ++
    "#v → VCVRack TTY, #f → Fennel (default), #n → nous.\",\n" ++
    "  \"inputSchema\": \x7b\n    \"type\": \"object\",\n    \"properties\": \x7b\n" ++
    "      \"expression\": \x7b\n        \"type\": \"string\",\n" ++
    "        \"description\": \"Expression to evaluate. Optional prefix: #v (VCVRack TTY), " ++
    "#f (Fennel), #n (nous).\"\n      \x7d\n    \x7d,\n    \"required\": [\"expression\"]\n  \x7d\n" ++
    "\x7d")).data.toList.map UInt8.toBitVec

/-- The result of `handle_initialize`. -/
def initializeResult : List Byte :=
  ascii ("\x7b\"protocolVersion\":\"2024-11-05\",\"capabilities\":\x7b\"tools\":\x7b\x7d\x7d," ++
    "\"serverInfo\":\x7b\"name\":\"nomos-mcp\",\"version\":\"0.1.0\"\x7d\x7d")

/-- The result of `handle_tools_list`. -/
def toolsListResult : List Byte := ascii "\x7b\"tools\":[" ++ kToolSchema ++ ascii "]\x7d"

/-- What a round of the main loop writes, on the connection `evaluate` would get. -/
def respond (conn : Option (WriteEnd × ReadEnd)) (body : List Byte) : List (List Byte) :=
  match round body with
  | .handleInitialize idRaw => [mcpResult idRaw initializeResult]
  | .silent => []
  | .handleToolsList idRaw => [mcpResult idRaw toolsListResult]
  | .handleEvaluate idRaw expression => [mcpReply idRaw (handleEvaluate conn expression)]
  | .error idRaw code message => [mcpError idRaw code message]

/-- `main`: what it writes to `stdout`, from round `n` on. -/
def mainLoop (conn : Nat → Option (WriteEnd × ReadEnd)) (n : Nat) (input : List Byte) : List Byte :=
  if _hbody : (mcpRead input).1 = [] then []
  else (respond (conn n) (mcpRead input).1).flatMap mcpWrite ++ mainLoop conn (n + 1) (mcpRead input).2
termination_by input.length
decreasing_by exact length_mcpRead_lt _hbody

/-! ## Messages as clients send them -/

/-- A header block that announces the body. -/
structure Framed (header body : List Byte) : Prop where
  ends : endsHeader header = true
  first : ∀ p, p <+: header → p ≠ header → endsHeader p = false
  length : contentLength header = body.length
  nonempty : body ≠ []

instance (header body : List Byte) : Decidable (Framed header body) :=
  decidable_of_iff (endsHeader header = true ∧
      (∀ p ∈ header.inits, p ≠ header → endsHeader p = false) ∧
      contentLength header = body.length ∧ body ≠ [])
    ⟨fun ⟨hends, hfirst, hlength, hne⟩ =>
        ⟨hends, fun p hp => hfirst p ((List.mem_inits p header).mpr hp), hlength, hne⟩,
      fun h => ⟨h.ends, fun p hp => h.first p ((List.mem_inits p header).mp hp), h.length,
        h.nonempty⟩⟩

theorem readHeader_append (buf : List Byte) {x : List Byte} (hx : x ≠ [])
    (hends : endsHeader (buf ++ x) = true)
    (hfirst : ∀ p, p <+: x → p ≠ x → p ≠ [] → endsHeader (buf ++ p) = false) (rest : List Byte) :
    readHeader buf (x ++ rest) = some (buf ++ x, rest) := by
  induction x generalizing buf with
  | nil => exact absurd rfl hx
  | cons c x ih =>
      rw [List.cons_append, readHeader]
      by_cases hnil : x = []
      · rw [hnil] at hends ⊢
        rw [if_pos hends, List.nil_append]
      · have hno : endsHeader (buf ++ [c]) = false := by
          refine hfirst [c] ⟨x, rfl⟩ (fun heq => hnil ?_) (List.cons_ne_nil _ _)
          exact (List.cons.inj heq).2.symm
        have hassoc : ∀ y, buf ++ [c] ++ y = buf ++ c :: y := fun y => List.append_cons .. |>.symm
        rw [if_neg (Bool.eq_false_iff.mp hno)]
        rw [ih (buf ++ [c]) hnil (hassoc x ▸ hends), hassoc]
        intro p hp hne hp0
        rw [hassoc]
        refine hfirst (c :: p) ((List.cons_prefix_cons).mpr ⟨rfl, hp⟩) (fun heq => hne ?_)
          (List.cons_ne_nil _ _)
        exact (List.cons.inj heq).2

/-- A framed message is read as what it is. -/
theorem Framed.mcpRead_eq {header body : List Byte} (h : Framed header body) (rest : List Byte) :
    mcpRead (header ++ (body ++ rest)) = (body, rest) := by
  have hne : header ≠ [] := by
    rintro rfl
    exact absurd h.ends (by decide)
  have hread : readHeader [] (header ++ (body ++ rest)) = some ([] ++ header, body ++ rest) :=
    readHeader_append [] hne h.ends (fun p hp hne' _ => h.first p hp hne') (body ++ rest)
  have hpos := List.length_pos_iff.mpr h.nonempty
  rw [mcpRead, hread]
  dsimp only [List.nil_append]
  rw [h.length, if_neg (by omega), if_neg (by simp), Int.toNat_natCast, List.take_left,
    List.drop_left]

/-- A header block ends with two line feeds. -/
theorem two_le_count_of_endsHeader {p : List Byte} (h : endsHeader p = true) :
    2 ≤ p.count 0x0A := by
  rw [endsHeader, Bool.or_eq_true, List.isSuffixOf_iff_suffix, List.isSuffixOf_iff_suffix] at h
  rcases h with h | h
  · exact h.sublist.count_le 0x0A
  · exact h.sublist.count_le 0x0A

/-- A header block of one line ends where it should. -/
theorem endsHeader_line {line p : List Byte} (hlf : 0x0A ∉ line)
    (hp : p <+: line ++ ascii "\r\n\r\n") (hne : p ≠ line ++ ascii "\r\n\r\n") :
    endsHeader p = false := by
  have hsplit : line ++ ascii "\r\n\r\n" = (line ++ [0x0D, 0x0A, 0x0D]) ++ [0x0A] := by
    rw [List.append_assoc]
    rfl
  rw [hsplit] at hp hne
  have hp' : p <+: line ++ [0x0D, 0x0A, 0x0D] := (List.prefix_concat_iff.mp hp).resolve_left hne
  have hcount : p.count 0x0A ≤ 1 := by
    have hle := hp'.sublist.count_le 0x0A
    rw [List.count_append, List.count_eq_zero.mpr hlf] at hle
    exact hle
  by_contra hends
  have htwo := two_le_count_of_endsHeader (Bool.eq_true_of_not_eq_false hends)
  omega

theorem find_self (pat rest : List Byte) : find pat (pat ++ rest) = some 0 :=
  find_eq (List.prefix_append ..) fun _ _ => Nat.zero_le _

/-- What `mcp_write` writes is framed. -/
theorem framed_mcpWrite {body : List Byte} (hne : body ≠ []) (hlen : body.length < 2 ^ 31) :
    Framed (ascii "Content-Length: " ++ decimal body.length ++ ascii "\r\n\r\n") body := by
  have hlf : 0x0A ∉ ascii "Content-Length: " ++ decimal body.length := by
    rw [List.mem_append, not_or]
    refine ⟨by decide, fun hmem => ?_⟩
    exact absurd (isDecimal_of_mem_decimal hmem) (by decide)
  refine ⟨?_, fun p hp hp' => endsHeader_line hlf hp hp', ?_, hne⟩
  · rw [endsHeader, Bool.or_eq_true, List.isSuffixOf_iff_suffix]
    exact .inl (List.suffix_append ..)
  · have hname : ascii "Content-Length: " ++ decimal body.length ++ ascii "\r\n\r\n" =
        ascii "Content-Length:" ++ ([0x20] ++ (decimal body.length ++ ascii "\r\n\r\n")) := by
      rw [List.append_assoc, ← List.append_assoc (ascii "Content-Length:")]
      rfl
    rw [hname, contentLength, find_self]
    dsimp only
    have hdrop : (ascii "Content-Length:" ++ ([0x20] ++ (decimal body.length ++
        ascii "\r\n\r\n"))).drop 15 = [0x20] ++ (decimal body.length ++ ascii "\r\n\r\n") :=
      List.drop_left' rfl
    rw [hdrop]
    exact atoi_decimal hlen (by decide) (by decide)

/-! ## What is found in a message -/

/-- The texts that are met with silence: by what is found for the method and the id, the
    notification, and unknown methods without an id. -/
def FoundSilent (body : List Byte) : Prop :=
  let method := jsonStr body "method"
  method = ascii "notifications/initialized" ∨
    method ≠ ascii "initialize" ∧ method ≠ ascii "tools/list" ∧ method ≠ ascii "tools/call" ∧
      jsonIdRaw body = ascii "null"

/-- The answer goes on behind the id with a comma. -/
def Under (idRaw answer : List Byte) : Prop :=
  ∃ rest, answer = ascii "\x7b\"jsonrpc\":\"2.0\",\"id\":" ++ (idRaw ++ 0x2C :: rest)

/-- One answer under the id that is found, or silence. -/
def FoundAnswers (body : List Byte) (answers : List (List Byte)) : Prop :=
  FoundSilent body ∧ answers = [] ∨
    ¬ FoundSilent body ∧ ∃ a, answers = [a] ∧ Under (jsonIdRaw body) a

theorem foundAnswers_respond (conn : Option (WriteEnd × ReadEnd)) (body : List Byte) :
    FoundAnswers body (respond conn body) := by
  unfold FoundAnswers FoundSilent respond round
  dsimp only
  split_ifs with hinit hnotified hlist hcall hname hexpr hid
  · refine .inr ⟨?_, _, rfl, _, rfl⟩
    rintro (hno | ⟨hno, -⟩)
    · exact absurd (hinit.symm.trans hno) (by decide)
    · exact hno hinit
  · exact .inl ⟨.inl hnotified, rfl⟩
  · refine .inr ⟨?_, _, rfl, _, rfl⟩
    rintro (hno | ⟨-, hno, -⟩)
    · exact hnotified hno
    · exact hno hlist
  · refine .inr ⟨?_, _, rfl, _, rfl⟩
    rintro (hno | ⟨-, -, hno, -⟩)
    · exact hnotified hno
    · exact hno hcall
  · refine .inr ⟨?_, _, rfl, ?_⟩
    · rintro (hno | ⟨-, -, hno, -⟩)
      · exact hnotified hno
      · exact hno hcall
    · obtain ⟨c, tail, -, heq⟩ := mcpReply_eq (jsonIdRaw body)
        (handleEvaluate conn (jsonStr body "expression"))
      exact ⟨_, heq⟩
  · refine .inr ⟨?_, _, rfl, _, rfl⟩
    rintro (hno | ⟨-, -, hno, -⟩)
    · exact hnotified hno
    · exact hno hcall
  · refine .inr ⟨?_, _, rfl, _, rfl⟩
    rintro (hno | ⟨-, -, -, hno⟩)
    · exact hnotified hno
    · exact hid hno
  · exact .inl ⟨.inr ⟨hinit, hlist, hcall, not_not.mp hid⟩, rfl⟩

theorem FoundAnswers.ne_nil {body a : List Byte} {answers : List (List Byte)}
    (h : FoundAnswers body answers) (ha : a ∈ answers) : a ≠ [] := by
  rcases h with ⟨-, rfl⟩ | ⟨-, a', rfl, rest, rfl⟩
  · cases ha
  · rw [List.mem_singleton.mp ha]
    exact List.append_ne_nil_of_left_ne_nil (by decide) _

/-! ## JSON messages -/

/-- The member `id`, a number or a string. -/
structure IdField (members : List (Member Value)) extends Named members "id" where
  requestId : RequestId
  value_eq : member.value = requestId.value

/-- A JSON-RPC message in its layout, with its method and the id it may have. -/
structure JsonMessage where
  front : List Blank
  back : List Blank
  top : List (Member Value)
  method : StringField top "method"
  id : Option (IdField top)

def JsonMessage.text (m : JsonMessage) : List Byte :=
  blanks m.front ++ ((Value.object [] m.top).text ++ blanks m.back)

/-- The id of the message is first met at its member, in a layout that serves; without an id,
    its name stands nowhere. -/
def JsonMessage.IdFound (m : JsonMessage) : Prop :=
  match m.id with
  | some f => FirstMention m.text "id" f.member ∧ IdServes f.requestId f.member
  | none => ∀ k, ¬ quoted "id" <+: m.text.drop k

/-- The program finds the method and the id where they belong. -/
def JsonMessage.Found (m : JsonMessage) : Prop :=
  FirstMention m.text "method" m.method.member ∧ m.method.Serves ∧ m.IdFound

/-- The messages that are met with silence: the notification, and unknown methods without an
    id. -/
def JsonMessage.Silent (m : JsonMessage) : Prop :=
  decode m.method.items = ascii "notifications/initialized" ∨
    m.id.isNone = true ∧ decode m.method.items ∉
      [ascii "initialize", ascii "tools/list", ascii "tools/call"]

/-- The answer is under the id of the message, which is `null` if it has none. -/
def JsonMessage.OwnId (m : JsonMessage) (answer : List Byte) : Prop :=
  match m.id with
  | some f => CarriesId answer f.requestId
  | none => Under (ascii "null") answer

/-- One answer under the message's own id, or silence. -/
def JsonMessage.AnsweredBy (m : JsonMessage) (answers : List (List Byte)) : Prop :=
  m.Silent ∧ answers = [] ∨ ¬ m.Silent ∧ ∃ a, answers = [a] ∧ m.OwnId a

theorem find_eq_none {pat s : List Byte} (h : ∀ k, ¬ pat <+: s.drop k) : find pat s = none := by
  cases hfind : find pat s with
  | none => rfl
  | some n => exact absurd (prefix_of_find hfind) (h n)

/-- A member that serves is read as it is meant. -/
theorem StringField.jsonStr_of_serves {members : List (Member Value)} {key : String}
    (f : StringField members key) {text : List Byte} (h : FirstMention text key f.member)
    (hs : f.Serves) : jsonStr text key = decode f.items := by
  rcases jsonStr_at h f.value_eq with ⟨-, -, heq⟩ | ⟨hno, -⟩
  · rw [heq, hs.2.2.decode_eq]
  · exact absurd ⟨hs.1, hs.2.1⟩ hno

/-- An id is not taken for a missing one. -/
theorem SpellsId.ne_null {idRaw : List Byte} {id : RequestId} (h : SpellsId idRaw id) :
    idRaw ≠ ascii "null" := by
  obtain ⟨w, w', t, ht, rfl⟩ := h
  have hhead : ∃ c t', t = c :: t' ∧ isBlankByte c = false ∧ c ≠ 0x6E := by
    cases id with
    | number n =>
        obtain ⟨c, t', htext, hc⟩ := n.head_text
        obtain ⟨c', t'', rfl, hblank, -⟩ := ht.head
        obtain ⟨rfl, rfl⟩ := List.cons.inj ((show c' :: t'' = n.text from ht).trans htext)
        exact ⟨c', t'', rfl, hblank, ne_of_kind hc rfl⟩
    | string s =>
        obtain ⟨s', rfl, -⟩ := ht
        exact ⟨0x22, _, rfl, rfl, by decide⟩
  obtain ⟨c, t', rfl, hblank, hne⟩ := hhead
  intro hnull
  have hsplit : blanks w ++ c :: (t' ++ blanks w') = blanks [] ++ 0x6E :: ascii "ull" := hnull
  exact hne (blanks_unique hblank (by decide) hsplit).1

/-- What the program finds in such a message is its method and its id. -/
theorem JsonMessage.answeredBy {m : JsonMessage} (h : m.Found) {answers : List (List Byte)}
    (ha : FoundAnswers m.text answers) : m.AnsweredBy answers := by
  obtain ⟨hmethod, hserves, hid⟩ := h
  have hmethod' := m.method.jsonStr_of_serves hmethod hserves
  have hown : (jsonIdRaw m.text = ascii "null" ↔ m.id.isNone = true) ∧
      ∀ a, Under (jsonIdRaw m.text) a → m.OwnId a := by
    unfold JsonMessage.IdFound at hid
    unfold JsonMessage.OwnId
    cases hsome : m.id with
    | none =>
        rw [hsome] at hid
        have hnull : jsonIdRaw m.text = ascii "null" := by
          rw [jsonIdRaw, find_eq_none hid]
        rw [hnull]
        exact ⟨⟨fun _ => rfl, fun _ => rfl⟩, fun a h => h⟩
    | some f =>
        rw [hsome] at hid
        have hspells := spellsId_of_serves hid.1 f.value_eq hid.2
        refine ⟨⟨fun hno => absurd hno hspells.ne_null,
          fun hno => absurd hno Bool.false_ne_true⟩, ?_⟩
        rintro a ⟨rest, rfl⟩
        exact hspells.carriesId rest
  have hsilent : FoundSilent m.text ↔ m.Silent := by
    unfold FoundSilent JsonMessage.Silent
    rw [hmethod', hown.1]
    generalize decode m.method.items = method
    generalize ascii "initialize" = opening
    generalize ascii "tools/list" = listing
    generalize ascii "tools/call" = call
    simp only [List.mem_cons, List.not_mem_nil, or_false, not_or]
    tauto
  rcases ha with ⟨hs, rfl⟩ | ⟨hs, a, rfl, hunder⟩
  · exact .inl ⟨hsilent.mp hs, rfl⟩
  · exact .inr ⟨mt hsilent.mpr hs, a, rfl, hown.2 a hunder⟩

/-- At most one answer, under the id that is found; of a JSON message whose method and id are
    found where they belong, one answer under its own id, or silence. -/
structure Answers (body : List Byte) (answers : List (List Byte)) : Prop where
  atMostOne : answers.length ≤ 1
  found : ∀ a ∈ answers, Under (jsonIdRaw body) a
  own : ∀ m : JsonMessage, m.text = body → m.Found → m.AnsweredBy answers

theorem answers_respond (conn : Option (WriteEnd × ReadEnd)) (body : List Byte) :
    Answers body (respond conn body) := by
  have h := foundAnswers_respond conn body
  refine ⟨?_, ?_, ?_⟩
  · rcases h with ⟨-, heq⟩ | ⟨-, a, heq, -⟩ <;> rw [heq] <;> simp
  · rcases h with ⟨-, heq⟩ | ⟨-, a, heq, hunder⟩
    · rw [heq]
      exact fun a ha => absurd ha List.not_mem_nil
    · rw [heq]
      intro a' ha'
      rwa [List.mem_singleton.mp ha']
  · rintro m rfl hfound
    exact m.answeredBy hfound h

/-! ## The main loop on framed messages -/

/-- The reader of the framing finds what was written. -/
theorem messages_mcpWrite {bodies : List (List Byte)} (h : ∀ b ∈ bodies, b ≠ [] ∧ b.length < 2 ^ 31) :
    messages (bodies.flatMap mcpWrite) = bodies := by
  induction bodies with
  | nil => rw [List.flatMap_nil, messages, dif_pos (by decide)]
  | cons b bodies ih =>
      obtain ⟨hne, hlen⟩ := h b (List.mem_cons_self ..)
      have hread := (framed_mcpWrite hne hlen).mcpRead_eq (bodies.flatMap mcpWrite)
      rw [← List.append_assoc] at hread
      have hinput : (b :: bodies).flatMap mcpWrite = mcpWrite b ++ bodies.flatMap mcpWrite := rfl
      have hb : mcpRead (mcpWrite b ++ bodies.flatMap mcpWrite) = (b, bodies.flatMap mcpWrite) := hread
      rw [hinput, messages, hb, dif_neg hne, ih fun c hc => h c (List.mem_cons_of_mem _ hc)]

/-- What the rounds answer with, from round `n` on. -/
def roundAnswers (conn : Nat → Option (WriteEnd × ReadEnd)) (n : Nat)
    (frames : List (List Byte × List Byte)) : List (List (List Byte)) :=
  (frames.zipIdx n).map fun f => respond (conn f.2) f.1.2

/-- The rounds of the loop follow the messages of the input. -/
theorem mainLoop_framed (conn : Nat → Option (WriteEnd × ReadEnd))
    {frames : List (List Byte × List Byte)} (hframes : ∀ f ∈ frames, Framed f.1 f.2)
    {rest : List Byte} (hrest : (mcpRead rest).1 = []) (n : Nat) :
    mainLoop conn n (frames.flatMap (fun f => f.1 ++ f.2) ++ rest) =
      (roundAnswers conn n frames).flatten.flatMap mcpWrite := by
  induction frames generalizing n with
  | nil =>
      rw [List.flatMap_nil, List.nil_append, mainLoop, dif_pos hrest]
      rfl
  | cons f frames ih =>
      have hf := hframes f (List.mem_cons_self ..)
      have hinput : (f :: frames).flatMap (fun f => f.1 ++ f.2) ++ rest =
          f.1 ++ (f.2 ++ (frames.flatMap (fun f => f.1 ++ f.2) ++ rest)) := by
        simp only [List.flatMap_cons, List.append_assoc]
      have hanswers : roundAnswers conn n (f :: frames) =
          respond (conn n) f.2 :: roundAnswers conn (n + 1) frames := rfl
      rw [hinput, mainLoop, hf.mcpRead_eq, dif_neg hf.nonempty,
        ih (fun g hg => hframes g (List.mem_cons_of_mem _ hg)) (n + 1), hanswers,
        List.flatten_cons, List.flatMap_append]

theorem forall₂_roundAnswers (conn : Nat → Option (WriteEnd × ReadEnd))
    (frames : List (List Byte × List Byte)) (n : Nat) :
    List.Forall₂ (fun f answers => Answers f.2 answers) frames (roundAnswers conn n frames) := by
  induction frames generalizing n with
  | nil => exact .nil
  | cons f frames ih => exact .cons (answers_respond (conn n) f.2) (ih (n + 1))

/-- A request for a method that is not there, and a notification of it. -/
def pingRequest : List Byte := ascii "\x7b\"id\":7,\"method\":\"ping\"\x7d"

def pingNotification : List Byte := ascii "\x7b\"method\":\"ping\"\x7d"

/-- The request is framed as `mcp_write` does it, the notification behind another header and
    without carriage returns, and a third message is cut off. -/
def pingFrames : List (List Byte × List Byte) :=
  [(ascii "Content-Length: 24\r\n\r\n", pingRequest),
    (ascii "Content-Type: x\nContent-Length: 17\n\n", pingNotification)]

def seven : Number := ⟨false, ⟨0x37, of_decide_eq_true rfl⟩, [], fun _ => rfl, none, none⟩

/-- The request, with its members. -/
def pingMessage : JsonMessage where
  front := []
  back := []
  top := [tight "id" (.number seven), tight "method" (.string (plainItems "ping"))]
  method := ⟨⟨tight "method" (.string (plainItems "ping")), .tail _ (.head _), rfl⟩,
    plainItems "ping", rfl⟩
  id := some ⟨⟨tight "id" (.number seven), .head _, rfl⟩, .number seven, rfl⟩

end NomosRt.Mcp
