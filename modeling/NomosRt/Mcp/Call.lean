/-
  NomosRt.Mcp.Call

  A `tools/call` request for `evaluate`, from its JSON text to the frame on the socket
  and the id of the response.

  A request is any JSON text with the members the protocol asks for, in any order and
  layout and among any others.  `evaluate_transported_iff` says which of them are carried
  faithfully when the names the program looks for are first met where they belong.

  On the way back, `evaluate_response_iff` says when the client reads the reply's payload
  from the text of the response: `json_escape` leaves most control characters as they are,
  and JSON does not allow them in a string.
-/

import NomosRt.Mcp.Frame

namespace NomosRt.Mcp

open NomosRt.Lib NomosRt.Lib.JsonText NomosRt.Ipc

/-! ## The id of the response -/

/-- The id of a request. -/
inductive RequestId where
  | number (n : Number)
  | string (s : List Item)

def RequestId.value : RequestId → Value
  | .number n => .number n
  | .string s => .string s

/-- The text is that number, or a string that stands for the same bytes. -/
def RequestId.Spells : RequestId → List Byte → Prop
  | .number n, t => t = n.text
  | .string s, t => ∃ s', t = literal s' ∧ decode s' = decode s

/-- The response is an object whose member `id`, behind `jsonrpc`, is the id. -/
def CarriesId (response : List Byte) (id : RequestId) : Prop :=
  ∃ w w' t rest, id.Spells t ∧
    response = ascii "\x7b\"jsonrpc\":\"2.0\",\"id\":" ++
      (blanks w ++ (t ++ (blanks w' ++ 0x2C :: rest)))

/-- Behind the raw id every response goes on with the name of its other member. -/
theorem mcpReply_eq (idRaw : List Byte) (reply : McpReply) :
    ∃ c tail, (c = 0x65 ∨ c = 0x72) ∧ mcpReply idRaw reply =
      ascii "\x7b\"jsonrpc\":\"2.0\",\"id\":" ++ (idRaw ++ 0x2C :: 0x22 :: c :: tail) := by
  cases reply with
  | error code message => exact ⟨0x65, _, .inl rfl, rfl⟩
  | text resp => exact ⟨0x72, _, .inr rfl, rfl⟩

/-- The raw id is the id with blanks around it. -/
def SpellsId (idRaw : List Byte) (id : RequestId) : Prop :=
  ∃ w w' t, id.Spells t ∧ idRaw = blanks w ++ (t ++ blanks w')

theorem SpellsId.carriesId {idRaw : List Byte} {id : RequestId} (h : SpellsId idRaw id)
    (rest : List Byte) :
    CarriesId (ascii "\x7b\"jsonrpc\":\"2.0\",\"id\":" ++ (idRaw ++ 0x2C :: rest)) id := by
  obtain ⟨w, w', t, ht, rfl⟩ := h
  refine ⟨w, w', t, rest, ht, ?_⟩
  rw [List.append_assoc, List.append_assoc]

theorem carriesId_mcpReply {idRaw : List Byte} {id : RequestId} (h : SpellsId idRaw id)
    (reply : McpReply) : CarriesId (mcpReply idRaw reply) id := by
  obtain ⟨c, tail, -, heq⟩ := mcpReply_eq idRaw reply
  rw [heq]
  exact h.carriesId _

theorem CarriesId.split {idRaw : List Byte} {id : RequestId} {reply : McpReply}
    (h : CarriesId (mcpReply idRaw reply) id) :
    ∃ c tail w w' t rest, (c = 0x65 ∨ c = 0x72) ∧ id.Spells t ∧
      idRaw ++ 0x2C :: 0x22 :: c :: tail = blanks w ++ (t ++ (blanks w' ++ 0x2C :: rest)) := by
  obtain ⟨w, w', t, rest, ht, hresp⟩ := h
  obtain ⟨c, tail, hc, heq⟩ := mcpReply_eq idRaw reply
  exact ⟨c, tail, w, w', t, rest, hc, ht, List.append_cancel_left (heq.symm.trans hresp)⟩

theorem RequestId.Spells.head {id : RequestId} {t : List Byte} (h : id.Spells t) :
    ∃ c t', t = c :: t' ∧ isBlankByte c = false ∧ c ≠ 0x3A := by
  cases id with
  | number n =>
      obtain ⟨c, t', htext, hc⟩ := n.head_text
      refine ⟨c, t', h.trans htext, ?_, ne_of_kind hc rfl⟩
      clear htext
      revert c
      decide
  | string s =>
      obtain ⟨s', rfl, -⟩ := h
      exact ⟨0x22, _, rfl, rfl, by decide⟩

/-- A colon in front of the value is not an id. -/
theorem not_carriesId_colon (w : List Blank) (t : List Byte) (id : RequestId) (reply : McpReply) :
    ¬ CarriesId (mcpReply (blanks w ++ 0x3A :: t) reply) id := by
  intro h
  obtain ⟨c, tail, w₁, w₂, t₁, rest, -, ht, heq⟩ := h.split
  obtain ⟨c₁, t₂, rfl, hblank, hcolon⟩ := ht.head
  rw [List.append_assoc] at heq
  exact hcolon (blanks_unique (by decide) hblank heq).1.symm

/-- A string as the id. -/
theorem carriesId_literal (w w' : List Blank) (s₁ s : List Item) (reply : McpReply) :
    CarriesId (mcpReply (blanks w ++ (literal s₁ ++ blanks w')) reply) (.string s) ↔
      decode s₁ = decode s := by
  refine ⟨fun h => ?_, fun h => ?_⟩
  · obtain ⟨c, tail, w₁, w₂, t₁, rest, -, ⟨s', rfl, hs'⟩, heq⟩ := h.split
    rw [List.append_assoc, List.append_assoc, literal_append, literal_append] at heq
    obtain ⟨-, hbody⟩ := blanks_unique (by decide) (by decide) heq
    rw [(bodyText_unique hbody).1]
    exact hs'
  · have hspells : (RequestId.string s).Spells (literal s₁) := ⟨s₁, rfl, h⟩
    exact carriesId_mcpReply ⟨w, w', _, hspells, rfl⟩ reply

/-- A string that was cut takes in the comma behind it and ends in front of the name of
    the other member. -/
theorem not_carriesId_cut (w : List Blank) (s : List Item) (id : RequestId) (reply : McpReply) :
    ¬ CarriesId (mcpReply (blanks w ++ 0x22 :: bodyText s) reply) id := by
  intro h
  obtain ⟨c, tail, w₁, w₂, t₁, rest, hc, ht, heq⟩ := h.split
  rw [List.append_assoc, List.cons_append] at heq
  cases id with
  | number n =>
      -- a number does not begin with the quote that the cut string begins with
      obtain ⟨c₁, t₂, htext, hnumber⟩ := n.head_text
      obtain ⟨c₂, t₃, rfl, hblank, -⟩ := ht.head
      obtain rfl : c₂ = c₁ := (List.cons.inj ((show c₂ :: t₃ = n.text from ht).trans htext)).1
      rw [← (blanks_unique (by decide) hblank heq).1] at hnumber
      exact absurd hnumber (by decide)
  | string s' =>
      -- the string goes on over the comma up to the quote of the next name, whose first letter
      -- then stands where a blank or a comma has to
      obtain ⟨s'', rfl, -⟩ := ht
      rw [literal_append] at heq
      obtain ⟨-, hbody⟩ := blanks_unique (by decide) (by decide) heq
      have hcomma : bodyText s ++ 0x2C :: 0x22 :: c :: tail =
          bodyText (s ++ [.plain ⟨0x2C, rfl⟩]) ++ 0x22 :: c :: tail := by
        rw [bodyText_append, List.append_assoc]
        rfl
      rw [hcomma] at hbody
      have hrest := (bodyText_unique hbody).2
      cases w₂ with
      | nil =>
          have hc' : c = 0x2C := (List.cons.inj hrest).1
          rw [hc'] at hc
          exact absurd hc (by decide)
      | cons b w₂ =>
          have hc' : c = b.byte := (List.cons.inj hrest).1
          rw [hc'] at hc
          cases b <;> exact absurd hc (by decide)

/-- The item as `json_escape` writes back what the loop took it for. -/
def respelled : Item → List Item
  | .plain b => [.plain b]
  | .escape .slash => [.plain ⟨0x2F, rfl⟩]
  | .escape .backspace => [.plain ⟨0x62, rfl⟩]
  | .escape .formFeed => [.plain ⟨0x66, rfl⟩]
  | .escape e => [.escape e]
  | .unicode a b c d =>
      [.plain ⟨0x75, rfl⟩, .plain ⟨a.val, isPlain_of_isHex a.property⟩,
        .plain ⟨b.val, isPlain_of_isHex b.property⟩, .plain ⟨c.val, isPlain_of_isHex c.property⟩,
        .plain ⟨d.val, isPlain_of_isHex d.property⟩]

theorem jsonEscape_plain {c : Byte} (hc : isPlain c = true) : jsonEscape [c] = [c] := by
  revert c
  decide

theorem jsonEscape_taken (x : Item) : jsonEscape (taken x) = bodyText (respelled x) := by
  cases x with
  | plain b => exact jsonEscape_plain b.property
  | escape e => cases e <;> rfl
  | unicode a b c d =>
      rw [taken, jsonEscape_cons, jsonEscape_cons a.val, jsonEscape_cons b.val,
        jsonEscape_cons c.val, jsonEscape_plain (isPlain_of_isHex a.property),
        jsonEscape_plain (isPlain_of_isHex b.property),
        jsonEscape_plain (isPlain_of_isHex c.property),
        jsonEscape_plain (isPlain_of_isHex d.property)]
      rfl

theorem jsonEscape_flatMap (s : List Item) :
    jsonEscape (s.flatMap taken) = bodyText (s.flatMap respelled) := by
  induction s with
  | nil => rfl
  | cons x s ih =>
      rw [List.flatMap_cons, List.flatMap_cons, jsonEscape_append, bodyText_append,
        jsonEscape_taken, ih]

theorem decode_respelled (s : List Item) : decode (s.flatMap respelled) = s.flatMap taken := by
  have hunit : ∀ x ∈ s.flatMap respelled, x.unit? = none := by
    intro x hx
    obtain ⟨y, -, hy⟩ := List.mem_flatMap.mp hx
    cases y with
    | plain b =>
        rw [List.mem_singleton.mp hy]
        rfl
    | escape e => cases e <;> rw [List.mem_singleton.mp hy] <;> rfl
    | unicode a b c d =>
        simp only [respelled, List.mem_cons, List.not_mem_nil, or_false] at hy
        rcases hy with rfl | rfl | rfl | rfl | rfl <;> rfl
  rw [decode_eq_flatMap hunit, List.flatMap_assoc]
  congr 1
  funext x
  cases x with
  | plain b => rfl
  | escape e => cases e <;> rfl
  | unicode a b c d => rfl

/-- A number comes out whole wherever the raw text begins. -/
theorem spellsId_rawNumber (w trail : List Blank) (n : Number) {post : List Byte}
    (hpost : post.head? = some 0x2C ∨ post.head? = some 0x7D) :
    SpellsId (rawValue (blanks w ++ (n.text ++ (blanks trail ++ post)))) (.number n) := by
  have hbyte {b : Byte} (hb : b ∈ n.text) : b ≠ 0x20 ∧ ¬ endsValue b := by
    have hnumber := n.isNumberByte_of_mem hb
    exact ⟨ne_of_kind hnumber rfl, not_endsValue_of_kind hnumber rfl rfl⟩
  obtain ⟨u, c, hsplit⟩ := (List.eq_nil_or_concat' n.text).resolve_left n.text_ne_nil
  have hlast : c ∈ n.text := by
    rw [hsplit]
    exact List.mem_append_right _ List.mem_cons_self
  have hfree : ∀ b ∈ u ++ [c], ¬ endsValue b := by
    intro b hb
    rw [← hsplit] at hb
    exact (hbyte hb).2
  obtain ⟨w', hw'⟩ := rawValue_token w trail (hbyte hlast).1 hfree hpost
  rw [hsplit, hw', ← hsplit]
  exact ⟨w, w', n.text, rfl, rfl⟩

/-- A string without a comma or a brace comes out whole. -/
theorem spellsId_rawString (w trail : List Blank) {s : List Item} {post : List Byte}
    (hpost : post.head? = some 0x2C ∨ post.head? = some 0x7D)
    (hfree : ∀ b ∈ bodyText s, ¬ endsValue b) :
    SpellsId (rawValue (blanks w ++ (literal s ++ (blanks trail ++ post)))) (.string s) := by
  have hquote : ¬ endsValue 0x22 := not_endsValue_of_kind (p := (· == 0x22)) rfl rfl rfl
  have hliteral : ∀ b ∈ (0x22 :: bodyText s) ++ [0x22], ¬ endsValue b := by
    intro b hb
    rcases List.mem_append.mp hb with hb | hb
    · rcases List.mem_cons.mp hb with rfl | hb
      · exact hquote
      · exact hfree b hb
    · rw [List.mem_singleton.mp hb]
      exact hquote
  obtain ⟨w', hw'⟩ := rawValue_token w trail (by decide) hliteral hpost
  exact ⟨w, w', literal s, ⟨s, rfl, rfl⟩, hw'⟩

/-- A string comes out whole unless a comma or a brace in it ends the raw text. -/
theorem carriesId_rawString_iff (w trail : List Blank) (s : List Item) {post : List Byte}
    (hpost : post.head? = some 0x2C ∨ post.head? = some 0x7D) (reply : McpReply) :
    CarriesId (mcpReply (rawValue (blanks w ++ (literal s ++ (blanks trail ++ post)))) reply)
      (.string s) ↔ ∀ b ∈ bodyText s, ¬ endsValue b := by
  by_cases hends : ∃ b ∈ bodyText s, endsValue b
  · obtain ⟨s', hs'⟩ := rawValue_cut w hends (0x22 :: (blanks trail ++ post))
    obtain ⟨b, hb, hb'⟩ := hends
    rw [literal_append, hs']
    exact ⟨fun hcarries => absurd hcarries (not_carriesId_cut w s' _ reply),
      fun hfree => absurd hb' (hfree b hb)⟩
  · have hfree : ∀ b ∈ bodyText s, ¬ endsValue b := fun b hb hb' => hends ⟨b, hb, hb'⟩
    exact ⟨fun _ => hfree,
      fun _ => carriesId_mcpReply (spellsId_rawString w trail hpost hfree) reply⟩

/-- What the layout of the id has to be: no blank but spaces in front of the colon, and
    for a string, what the loop knows when only spaces stand behind the colon, else no
    comma and no brace. -/
def IdServes (id : RequestId) (m : Member Value) : Prop :=
  Spaces m.mid ∧
    match id with
    | .number _ => True
    | .string s =>
        (Spaces m.gap → Simple s) ∧ (¬ Spaces m.gap → ∀ b ∈ bodyText s, ¬ endsValue b)

theorem Spaces.inline {w : List Blank} (h : Spaces w) : Inline w := fun b hb => .inl (h b hb)

/-- A string id behind spaces is taken by the loop and written again. -/
theorem jsonIdRaw_string {text : List Byte} {m : Member Value} {s : List Item}
    (h : FirstMention text "id" m) (hs : m.value = .string s) (hmid : Spaces m.mid)
    (hgap : Spaces m.gap) : jsonIdRaw text = literal (s.flatMap respelled) := by
  have hstr : jsonStr text "id" = s.flatMap taken := by
    rcases jsonStr_at h hs with ⟨-, -, hstr⟩ | ⟨hno, -⟩
    · exact hstr
    · exact absurd ⟨hmid.inline, hgap.inline⟩ hno
  have hvalue : m.value.text = 0x22 :: (bodyText s ++ [0x22]) := by
    rw [hs]
    rfl
  obtain ⟨post, -, ⟨-, -, hraw⟩ | ⟨-, hno, -⟩ | ⟨hno, -⟩⟩ := jsonIdRaw_at h
  · rw [hraw 0x22 _ hvalue (by decide) (by decide), if_pos rfl, hstr, jsonEscape_flatMap]
    rfl
  · exact absurd hgap hno
  · exact absurd hmid hno

/-- With a layout that serves, what is found is the id. -/
theorem spellsId_of_serves {text : List Byte} {m : Member Value} {id : RequestId}
    (h : FirstMention text "id" m) (hid : m.value = id.value) (hserves : IdServes id m) :
    SpellsId (jsonIdRaw text) id := by
  obtain ⟨post, hpost, hcase⟩ := jsonIdRaw_at h
  have hvalue : m.value.text = id.value.text := congrArg Value.text hid
  cases id with
  | number n =>
      rcases hcase with ⟨-, -, hraw⟩ | ⟨-, -, w, hraw⟩ | ⟨hno, -⟩
      · obtain ⟨c, t, htext, hc⟩ := n.head_text
        have hne : c ≠ 0x20 ∧ c ≠ 0x3A ∧ c ≠ 0x22 :=
          ⟨ne_of_kind hc rfl, ne_of_kind hc rfl, ne_of_kind hc rfl⟩
        rw [hraw c t (hvalue.trans htext) hne.1 hne.2.1, if_neg hne.2.2, hvalue]
        exact spellsId_rawNumber [] m.trail n hpost
      · rw [hraw, hvalue]
        exact spellsId_rawNumber w m.trail n hpost
      · exact absurd hserves.1 hno
  | string s =>
      -- with spaces only, the string is read and escaped again; else its raw text is taken
      by_cases hgap : Spaces m.gap
      · have hdecode : decode (s.flatMap respelled) = decode s := by
          rw [decode_respelled, taken_eq_decode_iff]
          exact hserves.2.1 hgap
        refine ⟨[], [], _, ⟨_, rfl, hdecode⟩, ?_⟩
        rw [jsonIdRaw_string h hid hserves.1 hgap, show blanks [] = [] from rfl, List.append_nil,
          List.nil_append]
      · rcases hcase with ⟨-, hyes, -⟩ | ⟨-, -, w, hraw⟩ | ⟨hno, -⟩
        · exact absurd hyes hgap
        · rw [hraw, hvalue]
          exact spellsId_rawString w m.trail hpost (hserves.2.2 hgap)
        · exact absurd hserves.1 hno

/-- Every response carries the id exactly when the layout of the id serves. -/
theorem carriesId_iff {text : List Byte} {m : Member Value} {id : RequestId}
    (h : FirstMention text "id" m) (hid : m.value = id.value) (reply : McpReply) :
    CarriesId (mcpReply (jsonIdRaw text) reply) id ↔ IdServes id m := by
  refine ⟨fun hcarries => ?_,
    fun hserves => carriesId_mcpReply (spellsId_of_serves h hid hserves) reply⟩
  obtain ⟨post, hpost, hcase⟩ := jsonIdRaw_at h
  -- a blank other than a space in front of the colon stops the skip there; the id is then
  -- the colon and what follows
  have hmid : Spaces m.mid := by
    by_contra hmid
    rcases hcase with ⟨hyes, -⟩ | ⟨hyes, -⟩ | ⟨-, w, t, hraw⟩
    · exact hmid hyes
    · exact hmid hyes
    · obtain ⟨t', ht'⟩ := rawValue_colon w t
      rw [hraw, ht'] at hcarries
      exact not_carriesId_colon w t' id reply hcarries
  cases id with
  | number n => exact ⟨hmid, trivial⟩
  | string s =>
      refine ⟨hmid, fun hgap => ?_, fun hgap => ?_⟩
      · have hliteral := carriesId_literal [] [] (s.flatMap respelled) s reply
        rw [show blanks [] = [] from rfl, List.append_nil, List.nil_append] at hliteral
        rw [jsonIdRaw_string h hid hmid hgap, hliteral, decode_respelled,
          taken_eq_decode_iff] at hcarries
        exact hcarries
      · rcases hcase with ⟨-, hyes, -⟩ | ⟨-, -, w, hraw⟩ | ⟨hno, -⟩
        · exact absurd hyes hgap
        · rw [hraw, show m.value.text = literal s from congrArg Value.text hid] at hcarries
          exact (carriesId_rawString_iff w m.trail s hpost reply).mp hcarries
        · exact absurd hmid hno

/-! ## The text of the response -/

/-- The bytes JSON allows in a string, as they are or escaped. -/
def isReadable (c : Byte) : Bool := isPlain c || isEscaped c

/-- The response under the raw id is a result whose content is the one text. -/
def CarriesText (idRaw response v : List Byte) : Prop :=
  ∃ s, decode s = v ∧ response = mcpResult idRaw
    (ascii "\x7b\"content\":[\x7b\"type\":\"text\",\"text\":" ++ (literal s ++ ascii "\x7d]\x7d"))

/-- An item for a readable byte, spelled as `json_escape` does it. -/
theorem exists_item {c : Byte} (h : isReadable c = true) :
    ∃ x : Item, x.text = jsonEscape [c] ∧ x.bytes = [c] ∧ x.unit? = none := by
  by_cases hc : isPlain c = true
  · exact ⟨.plain ⟨c, hc⟩, (jsonEscape_plain hc).symm, rfl, rfl⟩
  · have hescaped : isEscaped c = true := by
      rw [isReadable, Bool.or_eq_true] at h
      exact h.resolve_left hc
    simp only [isEscaped, Bool.or_eq_true, decide_eq_true_iff] at hescaped
    rcases hescaped with (((rfl | rfl) | rfl) | rfl) | rfl
    · exact ⟨.escape .quote, rfl, rfl, rfl⟩
    · exact ⟨.escape .backslash, rfl, rfl, rfl⟩
    · exact ⟨.escape .newline, rfl, rfl, rfl⟩
    · exact ⟨.escape .carriageReturn, rfl, rfl, rfl⟩
    · exact ⟨.escape .tab, rfl, rfl, rfl⟩

theorem exists_items {v : List Byte} (h : ∀ c ∈ v, isReadable c = true) :
    ∃ s, bodyText s = jsonEscape v ∧ decode s = v := by
  suffices hex : ∃ s, bodyText s = jsonEscape v ∧ s.flatMap Item.bytes = v ∧
      ∀ x ∈ s, x.unit? = none by
    obtain ⟨s, htext, hbytes, hunit⟩ := hex
    exact ⟨s, htext, (decode_eq_flatMap hunit).trans hbytes⟩
  induction v with
  | nil => exact ⟨[], rfl, rfl, fun x hx => absurd hx List.not_mem_nil⟩
  | cons c v ih =>
      rw [List.forall_mem_cons] at h
      obtain ⟨x, htext, hbytes, hunit⟩ := exists_item h.1
      obtain ⟨s, htext', hbytes', hunit'⟩ := ih h.2
      refine ⟨x :: s, ?_, ?_, List.forall_mem_cons.mpr ⟨hunit, hunit'⟩⟩
      · rw [bodyText_cons, jsonEscape_cons, htext, htext']
      · rw [List.flatMap_cons, hbytes, hbytes', List.singleton_append]

/-- No string has a control character in its text. -/
theorem le_of_mem_bodyText {s : List Item} {c : Byte} (h : c ∈ bodyText s) : 0x20 ≤ c := by
  obtain ⟨x, -, hx⟩ := List.mem_flatMap.mp h
  have hplain {b : Byte} (hb : isPlain b = true) : 0x20 ≤ b := by
    revert b
    decide
  cases x with
  | plain b =>
      rw [List.mem_singleton.mp hx]
      exact hplain b.property
  | escape e =>
      rcases List.mem_pair.mp hx with rfl | rfl
      · decide
      · cases e <;> decide
  | unicode a b c' d =>
      simp only [Item.text, List.mem_cons, List.not_mem_nil, or_false] at hx
      rcases hx with rfl | rfl | rfl | rfl | rfl | rfl
      · decide
      · decide
      · exact hplain (isPlain_of_isHex a.property)
      · exact hplain (isPlain_of_isHex b.property)
      · exact hplain (isPlain_of_isHex c'.property)
      · exact hplain (isPlain_of_isHex d.property)

/-- What `json_escape` writes is the body of a string exactly when all its bytes are readable,
    and the string is then what was escaped. -/
theorem bodyText_jsonEscape_iff (v v' : List Byte) :
    (∃ s, bodyText s = jsonEscape v ∧ decode s = v') ↔
      (∀ c ∈ v, isReadable c = true) ∧ v' = v := by
  refine ⟨?_, ?_⟩
  · rintro ⟨s, htext, rfl⟩
    have hreadable : ∀ c ∈ v, isReadable c = true := by
      intro c hc
      by_contra hno
      -- an unreadable byte is a control character that is written as it is
      have hcontrol : ∀ c : Byte, ¬ isReadable c = true → jsonEscape [c] = [c] ∧ ¬ 0x20 ≤ c := by
        decide
      obtain ⟨hsame, hlow⟩ := hcontrol c hno
      have hmem : c ∈ jsonEscape v := by
        refine List.mem_flatMap.mpr ⟨c, hc, ?_⟩
        rw [jsonEscape, List.flatMap_singleton] at hsame
        rw [hsame]
        exact List.mem_singleton_self c
      rw [← htext] at hmem
      exact hlow (le_of_mem_bodyText hmem)
    obtain ⟨s', htext', hdecode⟩ := exists_items hreadable
    have hsame : bodyText s ++ 0x22 :: [] = bodyText s' ++ 0x22 :: [] := by
      rw [htext, htext']
    rw [(bodyText_unique hsame).1]
    exact ⟨hreadable, hdecode⟩
  · rintro ⟨hreadable, rfl⟩
    exact exists_items hreadable

theorem mcpResult_injective {idRaw x y : List Byte} (h : mcpResult idRaw x = mcpResult idRaw y) :
    x = y := by
  rw [mcpResult, mcpResult] at h
  have htail := List.append_cancel_left (List.append_cancel_left h)
  exact List.append_cancel_left (List.append_cancel_right htail)

theorem carriesText_iff (idRaw resp v : List Byte) :
    CarriesText idRaw (mcpReply idRaw (.text resp)) v ↔
      (∀ c ∈ resp, isReadable c = true) ∧ v = resp := by
  rw [← bodyText_jsonEscape_iff]
  have hquoted : mcpReply idRaw (.text resp) = mcpResult idRaw
      (ascii "\x7b\"content\":[\x7b\"type\":\"text\",\"text\":" ++
        (0x22 :: (jsonEscape resp ++ [0x22]) ++ ascii "\x7d]\x7d")) := by
    have hopen : ascii "\x7b\"content\":[\x7b\"type\":\"text\",\"text\":\"" =
        ascii "\x7b\"content\":[\x7b\"type\":\"text\",\"text\":" ++ [0x22] := by decide
    have hclose : ascii "\"\x7d]\x7d" = [0x22] ++ ascii "\x7d]\x7d" := by decide
    rw [mcpReply, hopen, hclose]
    simp only [List.append_assoc, List.cons_append, List.nil_append]
  rw [hquoted]
  refine ⟨?_, ?_⟩
  · rintro ⟨s, hdecode, heq⟩
    have hliteral := List.append_cancel_right (List.append_cancel_left (mcpResult_injective heq))
    have hbody := List.append_cancel_right (List.cons.inj hliteral).2
    exact ⟨s, hbody.symm, hdecode⟩
  · rintro ⟨s, htext, hdecode⟩
    refine ⟨s, hdecode, ?_⟩
    rw [literal, htext]

theorem not_carriesText_error (idRaw : List Byte) (code : Int) (message : String)
    (v : List Byte) : ¬ CarriesText idRaw (mcpReply idRaw (.error code message)) v := by
  rintro ⟨s, -, heq⟩
  rw [mcpReply, mcpError, mcpResult] at heq
  -- behind the id stands the other name
  have htail := List.append_cancel_left (List.append_cancel_left heq)
  exact absurd (List.cons.inj (List.cons.inj (List.cons.inj htail).2).2).1 (by decide)

/-- A reply with a line break and a quote in it. -/
def quotedReply : List (Byte × List Byte) :=
  [(0x55, ascii "\x7b:id \"mcp\"\n :result 3\x7d")]

/-- A member of an object, by its name. -/
structure Named (members : List (Member Value)) (key : String) where
  member : Member Value
  mem : member ∈ members
  name_eq : decode member.key = ascii key

/-- A member whose value is a string. -/
structure StringField (members : List (Member Value)) (key : String) extends
    Named members key where
  items : List Item
  value_eq : member.value = .string items

/-- A member whose value is an object. -/
structure ObjectField (members : List (Member Value)) (key : String) extends
    Named members key where
  fields : List (Member Value)
  value_eq : member.value = .object [] fields

/-- A JSON text of a `tools/call` request for `evaluate`. -/
structure EvaluateRequest where
  front : List Blank
  back : List Blank
  top : List (Member Value)
  id : Named top "id"
  requestId : RequestId
  id_eq : id.member.value = requestId.value
  method : StringField top "method"
  method_eq : decode method.items = ascii "tools/call"
  params : ObjectField top "params"
  name : StringField params.fields "name"
  name_eq : decode name.items = ascii "evaluate"
  arguments : ObjectField params.fields "arguments"
  expression : StringField arguments.fields "expression"
  expression_ne : decode expression.items ≠ []

def EvaluateRequest.text (r : EvaluateRequest) : List Byte :=
  blanks r.front ++ ((Value.object [] r.top).text ++ blanks r.back)

/-- The round calls `handle_evaluate` with an expression whose frame carries the routed
    expression of the request to the server, and whatever becomes of the call, the response
    carries the id of the request. -/
def Transported (r : EvaluateRequest) : Prop :=
  ∃ idRaw expr, round r.text = .handleEvaluate idRaw expr ∧
    FrameCarries expr (routed (decode r.expression.items)) ∧
    ∀ conn, CarriesId (mcpReply idRaw (handleEvaluate conn expr)) r.requestId

/-- The names the program looks for are first met at the members they belong to. -/
def EvaluateRequest.FirstMentions (r : EvaluateRequest) : Prop :=
  FirstMention r.text "id" r.id.member ∧ FirstMention r.text "method" r.method.member ∧
    FirstMention r.text "name" r.name.member ∧
    FirstMention r.text "expression" r.expression.member

/-- No line break stands between the name and the value, and the loop knows all escapes
    of the value. -/
def StringField.Serves {members : List (Member Value)} {key : String}
    (f : StringField members key) : Prop :=
  Inline f.member.mid ∧ Inline f.member.gap ∧ Simple f.items

/-- The layout, the spelling and the size that are carried faithfully. -/
def EvaluateRequest.Serves (r : EvaluateRequest) : Prop :=
  r.method.Serves ∧ r.name.Serves ∧ r.expression.Serves ∧
    PrefixServes (decode r.expression.items) ∧
    routedSize (decode r.expression.items) ≤ maxPayloadBytes ∧ IdServes r.requestId r.id.member

/-- When a round calls `handle_evaluate`. -/
theorem round_eq_iff (body idRaw expr : List Byte) :
    round body = .handleEvaluate idRaw expr ↔
      jsonStr body "method" = ascii "tools/call" ∧ jsonStr body "name" = ascii "evaluate" ∧
        jsonStr body "expression" ≠ [] ∧ idRaw = jsonIdRaw body ∧
        expr = jsonStr body "expression" := by
  unfold round
  dsimp only
  by_cases hmethod : jsonStr body "method" = ascii "tools/call"
  · rw [hmethod, if_neg (by decide), if_neg (by decide), if_neg (by decide), if_pos rfl]
    by_cases hname : jsonStr body "name" = ascii "evaluate"
    · rw [if_pos hname]
      by_cases hexpr : jsonStr body "expression" = []
      · rw [if_pos (List.isEmpty_iff.mpr hexpr)]
        exact ⟨nofun, fun h => absurd hexpr h.2.2.1⟩
      · rw [if_neg (mt List.isEmpty_iff.mp hexpr), Round.handleEvaluate.injEq]
        exact ⟨fun h => ⟨rfl, hname, hexpr, h.1.symm, h.2.symm⟩,
          fun h => ⟨h.2.2.2.1.symm, h.2.2.2.2.symm⟩⟩
    · rw [if_neg hname]
      exact ⟨nofun, fun h => absurd h.2.1 hname⟩
  · rw [if_neg hmethod]
    refine ⟨fun h => ?_, fun h => absurd h.1 hmethod⟩
    split_ifs at h

/-- A string field is looked up as it is meant exactly when it serves. -/
theorem StringField.jsonStr_eq_iff {members : List (Member Value)} {key : String}
    (f : StringField members key) {text : List Byte} (h : FirstMention text key f.member)
    (hne : decode f.items ≠ []) : jsonStr text key = decode f.items ↔ f.Serves := by
  rcases jsonStr_at h f.value_eq with ⟨hmid, hgap, heq⟩ | ⟨hno, heq⟩
  · rw [heq, taken_eq_decode_iff]
    exact ⟨fun hs => ⟨hmid, hgap, hs⟩, fun hs => hs.2.2⟩
  · rw [heq]
    exact ⟨fun hnil => absurd hnil.symm hne, fun hs => absurd ⟨hs.1, hs.2.1⟩ hno⟩

/-- The frame of a call carries the routed expression exactly when the field and its prefix
    serve and the payload is within the cap. -/
theorem StringField.frameCarries_iff {members : List (Member Value)} {key : String}
    (f : StringField members key) {text : List Byte} (h : FirstMention text key f.member)
    (hne : decode f.items ≠ []) :
    (jsonStr text key ≠ [] ∧ FrameCarries (jsonStr text key) (routed (decode f.items))) ↔
      f.Serves ∧ PrefixServes (decode f.items) ∧
        routedSize (decode f.items) ≤ maxPayloadBytes := by
  rw [Mcp.frameCarries_iff]
  rcases jsonStr_at h f.value_eq with ⟨hmid, hgap, heq⟩ | ⟨hno, heq⟩
  · rw [heq]
    refine ⟨fun ⟨_, hlen, hrouted⟩ => ?_, fun ⟨hs, hprefix, hsize⟩ => ?_⟩
    · obtain ⟨hs, hprefix⟩ := (stripped_taken_iff f.items).mp hrouted.symm
      rw [← hs.decode_eq, length_evalPayload hprefix] at hlen
      exact ⟨⟨hmid, hgap, hs⟩, hprefix, hlen⟩
    · have hrouted := (stripped_taken_iff f.items).mpr ⟨hs.2.2, hprefix⟩
      rw [← hs.2.2.decode_eq] at hrouted ⊢
      rw [length_evalPayload hprefix]
      exact ⟨hne, hsize, hrouted.symm⟩
  · rw [heq]
    exact ⟨fun hread => absurd rfl hread.1, fun hs => absurd ⟨hs.1.1, hs.1.2.1⟩ hno⟩

/-- A request whose names are first met where they belong is carried faithfully exactly
    when its layout, its spelling and its size serve. -/
theorem evaluate_transported_iff (r : EvaluateRequest) (hfirst : r.FirstMentions) :
    Transported r ↔ r.Serves := by
  obtain ⟨hid, hmethod, hname, hexpr⟩ := hfirst
  have hmethod' := r.method.jsonStr_eq_iff hmethod (by rw [r.method_eq]; decide)
  have hname' := r.name.jsonStr_eq_iff hname (by rw [r.name_eq]; decide)
  have hexpr' := r.expression.frameCarries_iff hexpr r.expression_ne
  rw [r.method_eq] at hmethod'
  rw [r.name_eq] at hname'
  refine ⟨?_, ?_⟩
  · rintro ⟨idRaw, expr, hround, hreads, hcarries⟩
    obtain ⟨hm, hn, hne, rfl, rfl⟩ := (round_eq_iff _ _ _).mp hround
    obtain ⟨hserves, hprefix, hsize⟩ := hexpr'.mp ⟨hne, hreads⟩
    exact ⟨hmethod'.mp hm, hname'.mp hn, hserves, hprefix, hsize,
      (carriesId_iff hid r.id_eq _).mp (hcarries none)⟩
  · rintro ⟨hm, hn, hserves, hprefix, hsize, hidServes⟩
    obtain ⟨hne, hreads⟩ := hexpr'.mpr ⟨hserves, hprefix, hsize⟩
    refine ⟨_, _, (round_eq_iff _ _ _).mpr ⟨hmethod'.mpr hm, hname'.mpr hn, hne, rfl, rfl⟩,
      hreads, fun conn => ?_⟩
    exact (carriesId_iff hid r.id_eq _).mpr hidServes

/-! ## Two calls -/

/-- A first mention, by where the name is found. -/
theorem firstMention_of_find {text : List Byte} {key : String} {m : Member Value} (n : Nat)
    (h : literal m.key = quoted key ∧ find (quoted key) text = some n ∧
      text = text.take n ++ (m.fromName ++ text.drop (n + m.fromName.length)) ∧
      n ≤ text.length ∧
      ((text.drop (n + m.fromName.length)).head? = some 0x2C ∨
        (text.drop (n + m.fromName.length)).head? = some 0x7D)) : FirstMention text key m := by
  obtain ⟨hkey, hfind, htext, hn, hpost⟩ := h
  refine ⟨hkey, text.take n, text.drop (n + m.fromName.length), htext, hpost, fun k hk => ?_⟩
  rw [List.length_take, Nat.min_eq_left hn]
  exact first_of_find hfind k hk

/-- Bytes that stand for themselves. -/
def plainItems (s : String) : List Item :=
  (ascii s).filterMap fun b => if h : isPlain b = true then some (.plain ⟨b, h⟩) else none

theorem simple_plainItems (s : String) : Simple (plainItems s) := by
  intro x hx
  obtain ⟨b, -, hb⟩ := List.mem_filterMap.mp hx
  split at hb
  · rw [← Option.some.inj hb]
    rfl
  · cases hb

/-- A member without blanks. -/
def tight (key : String) (value : Value) : Member Value := ⟨[], plainItems key, [], [], value, []⟩

def one : Number := ⟨false, ⟨0x31, of_decide_eq_true rfl⟩, [], fun _ => rfl, none, none⟩

/-- The members of a call with the expression `s`. -/
def callMembers (s : List Item) : List (Member Value) :=
  [tight "jsonrpc" (.string (plainItems "2.0")), tight "id" (.number one),
    tight "method" (.string (plainItems "tools/call")),
    tight "params" (.object [] [tight "name" (.string (plainItems "evaluate")),
      tight "arguments" (.object [] [tight "expression" (.string s)])])]

/-- A call with the expression `s` and the id 1, without blanks. -/
def callWith (s : List Item) (hs : decode s ≠ []) : EvaluateRequest where
  front := []
  back := []
  top := callMembers s
  id := ⟨tight "id" (.number one), .tail _ (.head _), rfl⟩
  requestId := .number one
  id_eq := rfl
  method := ⟨⟨tight "method" (.string (plainItems "tools/call")), .tail _ (.tail _ (.head _)), rfl⟩,
    plainItems "tools/call", rfl⟩
  method_eq := rfl
  params := ⟨⟨tight "params" (.object [] [tight "name" (.string (plainItems "evaluate")),
      tight "arguments" (.object [] [tight "expression" (.string s)])]),
    .tail _ (.tail _ (.tail _ (.head _))), rfl⟩, _, rfl⟩
  name := ⟨⟨tight "name" (.string (plainItems "evaluate")), .head _, rfl⟩, plainItems "evaluate", rfl⟩
  name_eq := rfl
  arguments := ⟨⟨tight "arguments" (.object [] [tight "expression" (.string s)]), .tail _ (.head _),
    rfl⟩, _, rfl⟩
  expression := ⟨⟨tight "expression" (.string s), .head _, rfl⟩, s, rfl⟩
  expression_ne := hs

/-- `#v (+ 1 2)`. -/
def plainExpression : List Item := plainItems "#v (+ 1 2)"

/-- `\u0041`. -/
def escapedExpression : List Item :=
  [.unicode ⟨0x30, rfl⟩ ⟨0x30, rfl⟩ ⟨0x34, rfl⟩ ⟨0x31, rfl⟩]

theorem plainExpression_ne : decode plainExpression ≠ [] := by decide

theorem escapedExpression_ne : decode escapedExpression ≠ [] := by decide

/-- A call whose expression is spelled out is carried faithfully. -/
theorem evaluate_transported_plain :
    Transported (callWith plainExpression plainExpression_ne) := by
  set r := callWith plainExpression plainExpression_ne
  have hfirst : r.FirstMentions :=
    ⟨firstMention_of_find 17 (by decide +kernel), firstMention_of_find 24 (by decide +kernel),
      firstMention_of_find 56 (by decide +kernel), firstMention_of_find 87 (by decide +kernel)⟩
  have hnone : Spaces [] := fun b hb => absurd hb List.not_mem_nil
  have hprefix : PrefixServes (decode plainExpression) :=
    show ascii " (+ 1 2)" ≠ [] from List.cons_ne_nil _ _
  have hserves : r.Serves :=
    ⟨⟨hnone.inline, hnone.inline, simple_plainItems _⟩,
      ⟨hnone.inline, hnone.inline, simple_plainItems _⟩,
      ⟨hnone.inline, hnone.inline, simple_plainItems _⟩, hprefix, by decide +kernel, hnone,
      trivial⟩
  exact (evaluate_transported_iff r hfirst).mpr hserves

/-- The letters of an escape arrive in place of the character. -/
theorem unicode_escape_garbled :
    round (callWith escapedExpression escapedExpression_ne).text =
        .handleEvaluate (ascii "1") (ascii "u0041") ∧
      ¬ Transported (callWith escapedExpression escapedExpression_ne) := by
  have hround : round (callWith escapedExpression escapedExpression_ne).text =
      .handleEvaluate (ascii "1") (ascii "u0041") := by decide +kernel
  refine ⟨hround, ?_⟩
  rintro ⟨idRaw, expr, hcall, hreads, -⟩
  rw [hround] at hcall
  obtain ⟨-, rfl⟩ := Round.handleEvaluate.inj hcall
  rw [frameCarries_iff] at hreads
  exact absurd hreads.2 (by decide)

end NomosRt.Mcp
