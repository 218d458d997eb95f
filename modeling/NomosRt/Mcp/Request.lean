/-
  NomosRt.Mcp.Request

  How nomos-mcp reads a request (tools/nomos-mcp.cpp): `json_str`, `json_id_raw`, the
  round of the main loop and the bodies it answers with.

  The program has no JSON parser.  A field is looked up by the first place in the text
  where its quoted name stands, whatever that place is, and its string is unescaped by
  a small state machine.  `jsonStr_at` and `jsonIdRaw_at` say what the two lookups
  return when the first place is the name of a member.

  `mcp_read` and `mcp_write`, and the texts that `initialize` and `tools/list` answer
  with, are in `Mcp.Stdio`.
-/

import Mathlib.Data.List.DropRight
import NomosRt.Mcp.Evaluate
import NomosRt.Lib.JsonText

namespace NomosRt.Mcp

open NomosRt.Lib NomosRt.Lib.JsonText NomosRt.Ipc

/-! ## Fields -/

/-- `std::string_view::find`: where `pat` stands first. -/
def find (pat : List Byte) : List Byte → Option Nat
  | [] => if pat.isPrefixOf [] then some 0 else none
  | b :: s => if pat.isPrefixOf (b :: s) then some 0 else (find pat s).map (· + 1)

/-- A name in its quotes. -/
def quoted (key : String) : List Byte := 0x22 :: (ascii key ++ [0x22])

/-- What the loop of `json_str` adds for a byte behind a backslash. -/
def escaped (c : Byte) : Byte :=
  if c = 0x22 then 0x22
  else if c = 0x5C then 0x5C
  else if c = 0x6E then 0x0A
  else if c = 0x72 then 0x0D
  else if c = 0x74 then 0x09
  else c

/-- The loop of `json_str`; `esc` is set behind a backslash. -/
def strLoop : Bool → List Byte → List Byte
  | _, [] => []
  | true, c :: s => escaped c :: strLoop false s
  | false, c :: s =>
      if c = 0x5C then strLoop true s
      else if c = 0x22 then []
      else c :: strLoop false s

/-- `json_str`. -/
def jsonStr (json : List Byte) (key : String) : List Byte :=
  match find (quoted key) json with
  | none => []
  | some pos =>
      match (json.drop (pos + (quoted key).length)).dropWhile
          fun c => c = 0x20 ∨ c = 0x3A ∨ c = 0x09 with
      | 0x22 :: rest => strLoop false rest
      | _ => []

/-- The raw value of `json_id_raw`: up to a comma or a brace, less the spaces before it. -/
def rawValue (t : List Byte) : List Byte :=
  (t.takeWhile fun c => c ≠ 0x2C ∧ c ≠ 0x7D).rdropWhile fun c => c = 0x20

/-- `json_id_raw`. -/
def jsonIdRaw (json : List Byte) : List Byte :=
  match find (quoted "id") json with
  | none => ascii "null"
  | some pos =>
      match (json.drop (pos + (quoted "id").length)).dropWhile fun c => c = 0x20 ∨ c = 0x3A with
      | [] => ascii "null"
      | c :: rest =>
          if c = 0x22 then ascii "\"" ++ jsonEscape (jsonStr json "id") ++ ascii "\""
          else rawValue (c :: rest)

/-! ## The main loop -/

/-- The body of `mcp_error`. -/
def mcpError (idRaw : List Byte) (code : Int) (msg : String) : List Byte :=
  ascii "\x7b\"jsonrpc\":\"2.0\",\"id\":" ++ (idRaw ++ (ascii ",\"error\":\x7b\"code\":" ++
    ascii (toString code) ++ ascii ",\"message\":\"" ++ jsonEscape (ascii msg) ++
      ascii "\"\x7d\x7d"))

/-- The body of `mcp_result`. -/
def mcpResult (idRaw resultJson : List Byte) : List Byte :=
  ascii "\x7b\"jsonrpc\":\"2.0\",\"id\":" ++
    (idRaw ++ (ascii ",\"result\":" ++ resultJson ++ ascii "\x7d"))

/-- The body `handle_evaluate` answers with. -/
def mcpReply (idRaw : List Byte) : McpReply → List Byte
  | .error code message => mcpError idRaw code message
  | .text resp =>
      mcpResult idRaw (ascii "\x7b\"content\":[\x7b\"type\":\"text\",\"text\":\"" ++
        jsonEscape resp ++ ascii "\"\x7d]\x7d")

/-- What a round of the main loop does with the body of a message. -/
inductive Round where
  | handleInitialize (idRaw : List Byte)
  | silent
  | handleToolsList (idRaw : List Byte)
  | handleEvaluate (idRaw expression : List Byte)
  | error (idRaw : List Byte) (code : Int) (message : String)
  deriving DecidableEq, Repr

/-- A round of the main loop. -/
def round (body : List Byte) : Round :=
  let idRaw := jsonIdRaw body
  let method := jsonStr body "method"
  if method = ascii "initialize" then .handleInitialize idRaw
  else if method = ascii "notifications/initialized" then .silent
  else if method = ascii "tools/list" then .handleToolsList idRaw
  else if method = ascii "tools/call" then
    if jsonStr body "name" = ascii "evaluate" then
      let expr := jsonStr body "expression"
      if expr.isEmpty then .error idRaw (-32602) "missing required argument: expression"
      else .handleEvaluate idRaw expr
    else .error idRaw (-32601) "unknown tool"
  else if idRaw ≠ ascii "null" then .error idRaw (-32601) "method not found"
  else .silent

/-! ## The first mention of a name -/

/-- A place found is the first one. -/
theorem first_of_find {pat : List Byte} {s : List Byte} {n : Nat} (h : find pat s = some n)
    (k : Nat) (hk : pat <+: s.drop k) : n ≤ k := by
  induction s generalizing n k with
  | nil =>
      rw [find] at h
      split at h
      · rw [← Option.some.inj h]
        exact Nat.zero_le k
      · cases h
  | cons b s ih =>
      rw [find] at h
      split at h
      · rw [← Option.some.inj h]
        exact Nat.zero_le k
      · rename_i hno
        obtain ⟨n', hn', rfl⟩ := Option.map_eq_some_iff.mp h
        cases k with
        | zero => exact absurd (List.isPrefixOf_iff_prefix.mpr hk) hno
        | succ k => exact Nat.succ_le_succ (ih hn' k hk)

/-- What is looked for stands at the place that is found. -/
theorem prefix_of_find {pat s : List Byte} {n : Nat} (h : find pat s = some n) :
    pat <+: s.drop n := by
  induction s generalizing n with
  | nil =>
      rw [find] at h
      split at h
      · rename_i hpat
        rw [← Option.some.inj h]
        exact List.isPrefixOf_iff_prefix.mp hpat
      · cases h
  | cons b s ih =>
      rw [find] at h
      split at h
      · rename_i hpat
        rw [← Option.some.inj h]
        exact List.isPrefixOf_iff_prefix.mp hpat
      · obtain ⟨n', hn', rfl⟩ := Option.map_eq_some_iff.mp h
        exact ih hn'

theorem find_eq {pat s : List Byte} {n : Nat} (hat : pat <+: s.drop n)
    (hfirst : ∀ k, pat <+: s.drop k → n ≤ k) : find pat s = some n := by
  induction s generalizing n with
  | nil =>
      rw [List.drop_nil] at hat
      obtain rfl : n = 0 := Nat.le_zero.mp (hfirst 0 hat)
      exact if_pos (List.isPrefixOf_iff_prefix.mpr hat)
  | cons b s ih =>
      rw [find]
      cases n with
      | zero => exact if_pos (List.isPrefixOf_iff_prefix.mpr hat)
      | succ n =>
          have hno : ¬ pat.isPrefixOf (b :: s) = true := fun h =>
            absurd (hfirst 0 (List.isPrefixOf_iff_prefix.mp h)) (Nat.not_succ_le_zero n)
          have hrest : find pat s = some n :=
            ih hat fun k hk => Nat.le_of_succ_le_succ (hfirst (k + 1) hk)
          rw [if_neg hno, hrest]
          rfl

/-- The first place where the quoted name stands is the name of the member, with the
    rest of the member behind it. -/
def FirstMention (text : List Byte) (key : String) (m : Member Value) : Prop :=
  literal m.key = quoted key ∧
    ∃ pre post, text = pre ++ (m.fromName ++ post) ∧
      (post.head? = some 0x2C ∨ post.head? = some 0x7D) ∧
      ∀ k, quoted key <+: text.drop k → pre.length ≤ k

/-- What stands behind the place that is found. -/
theorem FirstMention.found {text : List Byte} {key : String} {m : Member Value}
    (h : FirstMention text key m) :
    ∃ pos post, find (quoted key) text = some pos ∧
      (post.head? = some 0x2C ∨ post.head? = some 0x7D) ∧
      text.drop (pos + (quoted key).length) =
        blanks m.mid ++ 0x3A :: (blanks m.gap ++ (m.value.text ++ (blanks m.trail ++ post))) := by
  obtain ⟨hkey, pre, post, rfl, hpost, hfirst⟩ := h
  have hname : m.fromName ++ post = quoted key ++ (blanks m.mid ++ 0x3A :: (blanks m.gap ++
      (m.value.text ++ (blanks m.trail ++ post)))) := by
    rw [Member.fromName, hkey]
    simp only [List.append_assoc, List.cons_append]
  rw [hname] at hfirst ⊢
  refine ⟨pre.length, post, find_eq ?_ hfirst, hpost, ?_⟩
  · rw [List.drop_left]
    exact List.prefix_append _ _
  · rw [← List.drop_drop, List.drop_left, List.drop_left]

/-! ## A string field -/

/-- What the loop takes an item for. -/
def taken : Item → List Byte
  | .plain b => [b.val]
  | .escape e => [escaped e.letter]
  | .unicode a b c d => [0x75, a.val, b.val, c.val, d.val]

theorem isPlain_of_isHex {b : Byte} (h : isHex b = true) : isPlain b = true := by
  revert b
  decide

theorem strLoop_plain {b : Byte} (hb : isPlain b = true) (s : List Byte) :
    strLoop false (b :: s) = b :: strLoop false s := by
  rw [strLoop, if_neg (ne_backslash_of_isPlain hb), if_neg (ne_quote_of_isPlain hb)]

theorem strLoop_item (x : Item) (s : List Byte) :
    strLoop false (x.text ++ s) = taken x ++ strLoop false s := by
  cases x with
  | plain b => exact strLoop_plain b.property s
  | escape e => rfl
  | unicode a b c d =>
      show 0x75 :: strLoop false (a.val :: b.val :: c.val :: d.val :: s) = _
      rw [strLoop_plain (isPlain_of_isHex a.property), strLoop_plain (isPlain_of_isHex b.property),
        strLoop_plain (isPlain_of_isHex c.property), strLoop_plain (isPlain_of_isHex d.property)]
      rfl

/-- The loop runs to the closing quote. -/
theorem strLoop_body (s : List Item) (rest : List Byte) :
    strLoop false (bodyText s ++ 0x22 :: rest) = s.flatMap taken := by
  induction s with
  | nil => rfl
  | cons x s ih => rw [bodyText_cons, List.append_assoc, strLoop_item, ih, List.flatMap_cons]

/-- The blanks that `json_str` skips. -/
def Inline (w : List Blank) : Prop := ∀ b ∈ w, b = .space ∨ b = .tab

/-- `json_str` at a string member: its items as the loop takes them, or nothing when a
    line break stands between the name and the value. -/
theorem jsonStr_at {text : List Byte} {key : String} {m : Member Value} {s : List Item}
    (h : FirstMention text key m) (hs : m.value = .string s) :
    (Inline m.mid ∧ Inline m.gap ∧ jsonStr text key = s.flatMap taken) ∨
      (¬ (Inline m.mid ∧ Inline m.gap) ∧ jsonStr text key = []) := by
  obtain ⟨pos, post, hfind, -, hrest⟩ := h.found
  set skip : Byte → Bool := fun c => c = 0x20 ∨ c = 0x3A ∨ c = 0x09 with hskip
  have hinline (w : List Blank) (hw : ∀ b ∈ w, skip b.byte = true) : Inline w := by
    intro b hb
    have hbyte := hw b hb
    cases b <;> first | exact .inl rfl | exact .inr rfl | exact absurd hbyte (by decide)
  have hbreak (b : Blank) (hb : skip b.byte = false) : ¬ (b = .space ∨ b = .tab) := by
    rintro (rfl | rfl) <;> exact absurd hb (by decide)
  have hnothing (b : Blank) (t : List Byte) :
      (match b.byte :: t with
        | 0x22 :: rest => strLoop false rest
        | _ => []) = [] := by
    cases b <;> rfl
  have heq : jsonStr text key = (match (blanks m.mid ++ 0x3A :: (blanks m.gap ++
      (m.value.text ++ (blanks m.trail ++ post)))).dropWhile skip with
        | 0x22 :: rest => strLoop false rest
        | _ => []) := by
    rw [jsonStr, hfind]
    simp only [hrest, hskip]
  rw [heq]
  -- the skip reaches the value, or stops in the gap, or in front of the colon
  rcases dropWhile_colon (p := skip) rfl m.mid m.gap (m.value.text ++ (blanks m.trail ++ post)) with
    ⟨hmid, hgap, hdrop⟩ | ⟨-, b, w, hmem, hb, hdrop⟩ | ⟨b, w, hmem, hb, hdrop⟩
  · refine .inl ⟨hinline _ hmid, hinline _ hgap, ?_⟩
    rw [hdrop, hs]
    show strLoop false ((bodyText s ++ [0x22]) ++ (blanks m.trail ++ post)) = _
    rw [List.append_assoc, List.singleton_append, strLoop_body]
  · refine .inr ⟨fun hall => hbreak b hb (hall.2 b hmem), ?_⟩
    rw [hdrop]
    exact hnothing b _
  · refine .inr ⟨fun hall => hbreak b hb (hall.1 b hmem), ?_⟩
    rw [hdrop]
    exact hnothing b _

/-! ## The raw value of the id -/

/-- The bytes that end a raw value. -/
def endsValue (c : Byte) : Prop := c = 0x2C ∨ c = 0x7D

theorem takeWhile_value {u : List Byte} (hu : ∀ b ∈ u, ¬ endsValue b) (t : List Byte) :
    (u ++ t).takeWhile (fun c => c ≠ 0x2C ∧ c ≠ 0x7D) =
      u ++ t.takeWhile fun c => c ≠ 0x2C ∧ c ≠ 0x7D := by
  refine List.takeWhile_append_of_pos fun b hb => ?_
  exact decide_eq_true (not_or.mp (hu b hb))

theorem takeWhile_ended {post : List Byte} (h : post.head? = some 0x2C ∨ post.head? = some 0x7D) :
    post.takeWhile (fun c => c ≠ 0x2C ∧ c ≠ 0x7D) = [] := by
  cases post with
  | nil => rcases h with h | h <;> cases h
  | cons c post =>
      refine List.takeWhile_cons_of_neg ?_
      rcases h with h | h
      · rw [Option.some.inj h]
        decide
      · rw [Option.some.inj h]
        decide

/-- Spaces are trimmed only behind the last other byte. -/
theorem rdropWhile_append_cons (u : List Byte) {c : Byte} (hc : c ≠ 0x20) (v : List Byte) :
    (u ++ c :: v).rdropWhile (fun c => c = 0x20) =
      u ++ c :: v.rdropWhile fun c => c = 0x20 := by
  induction v using List.reverseRecOn with
  | nil =>
      rw [List.rdropWhile_concat_neg _ _ _ (by simpa using hc), List.rdropWhile_nil]
  | append_singleton v x ih =>
      rw [← List.cons_append, ← List.append_assoc]
      by_cases hx : x = 0x20
      · rw [List.rdropWhile_concat_pos _ _ _ (by simpa using hx),
          List.rdropWhile_concat_pos _ _ _ (by simpa using hx), ih]
      · rw [List.rdropWhile_concat_neg _ _ _ (by simpa using hx),
          List.rdropWhile_concat_neg _ _ _ (by simpa using hx), List.append_assoc]
        rfl

theorem rdropWhile_blanks (w : List Blank) :
    ∃ w', (blanks w).rdropWhile (fun c => c = 0x20) = blanks w' := by
  induction w using List.reverseRecOn with
  | nil => exact ⟨[], rfl⟩
  | append_singleton w b ih =>
      rw [blanks_append]
      by_cases hb : b.byte = 0x20
      · rw [show blanks [b] = [b.byte] from rfl, List.rdropWhile_concat_pos _ _ _ (by simpa using hb)]
        exact ih
      · refine ⟨w ++ [b], ?_⟩
        rw [show blanks [b] = [b.byte] from rfl, List.rdropWhile_concat_neg _ _ _ (by simpa using hb),
          blanks_append]
        rfl

/-- A byte of a kind that is neither a comma nor a brace. -/
theorem not_endsValue_of_kind {p : Byte → Bool} {b : Byte} (hb : p b = true)
    (hcomma : p 0x2C = false) (hbrace : p 0x7D = false) : ¬ endsValue b :=
  not_or.mpr ⟨ne_of_kind hb hcomma, ne_of_kind hb hbrace⟩

theorem not_endsValue_blank {w : List Blank} {b : Byte} (hb : b ∈ blanks w) : ¬ endsValue b :=
  not_endsValue_of_kind (isBlankByte_of_mem hb) rfl rfl

/-- A token without a comma or a brace comes out whole, with some of the blanks around
    it. -/
theorem rawValue_token (w trail : List Blank) {u : List Byte} {c : Byte} (hc : c ≠ 0x20)
    (hfree : ∀ b ∈ u ++ [c], ¬ endsValue b) {post : List Byte}
    (hpost : post.head? = some 0x2C ∨ post.head? = some 0x7D) :
    ∃ w', rawValue (blanks w ++ ((u ++ [c]) ++ (blanks trail ++ post))) =
      blanks w ++ ((u ++ [c]) ++ blanks w') := by
  obtain ⟨w', hw'⟩ := rdropWhile_blanks trail
  refine ⟨w', ?_⟩
  rw [rawValue, takeWhile_value (fun b => not_endsValue_blank), takeWhile_value hfree,
    takeWhile_value (fun b => not_endsValue_blank), takeWhile_ended hpost, List.append_nil]
  have hassoc (v : List Byte) : blanks w ++ ((u ++ [c]) ++ v) = (blanks w ++ u) ++ c :: v := by
    simp only [List.append_assoc, List.singleton_append]
  rw [hassoc, hassoc, rdropWhile_append_cons _ hc, hw']

/-- An item with a comma or a brace in it is that byte. -/
theorem item_endsValue_cases (x : Item) :
    (∃ c, endsValue c ∧ x.text = [c]) ∨ ∀ b ∈ x.text, ¬ endsValue b := by
  cases x with
  | plain b =>
      by_cases hb : endsValue b.val
      · exact .inl ⟨b.val, hb, rfl⟩
      · refine .inr fun c hc => ?_
        rwa [List.mem_singleton.mp hc]
  | escape e =>
      refine .inr fun c hc => ?_
      rintro (rfl | rfl) <;> cases e <;> exact absurd hc (by decide)
  | unicode a b c d =>
      have hhex {x : Byte} (hx : isHex x = true) : ¬ endsValue x :=
        not_endsValue_of_kind hx rfl rfl
      refine .inr fun x hx => ?_
      simp only [Item.text, List.mem_cons, List.not_mem_nil, or_false] at hx
      rcases hx with rfl | rfl | rfl | rfl | rfl | rfl
      · rintro (h | h) <;> exact absurd h (by decide)
      · rintro (h | h) <;> exact absurd h (by decide)
      · exact hhex a.property
      · exact hhex b.property
      · exact hhex c.property
      · exact hhex d.property

/-- A string with a comma or a brace in it is cut between two items. -/
theorem takeWhile_bodyText {s : List Item} (h : ∃ b ∈ bodyText s, endsValue b) (t : List Byte) :
    ∃ s', (bodyText s ++ t).takeWhile (fun c => c ≠ 0x2C ∧ c ≠ 0x7D) = bodyText s' := by
  induction s with
  | nil =>
      obtain ⟨b, hb, -⟩ := h
      exact absurd hb List.not_mem_nil
  | cons x s ih =>
      rw [bodyText_cons, List.append_assoc]
      rcases item_endsValue_cases x with ⟨c, hc, hx⟩ | hfree
      · refine ⟨[], ?_⟩
        rw [hx]
        refine List.takeWhile_cons_of_neg ?_
        simpa [endsValue, or_iff_not_imp_left] using hc
      · obtain ⟨b, hb, hends⟩ := h
        have hrest : b ∈ bodyText s := by
          rw [bodyText_cons] at hb
          exact (List.mem_append.mp hb).resolve_left fun hb => hfree b hb hends
        obtain ⟨s', hs'⟩ := ih ⟨b, hrest, hends⟩
        exact ⟨x :: s', by rw [takeWhile_value hfree, hs', bodyText_cons]⟩

/-- The spaces at the end of a string are items of their own. -/
theorem rdropWhile_bodyText (s : List Item) :
    ∃ s', (bodyText s).rdropWhile (fun c => c = 0x20) = bodyText s' := by
  induction s using List.reverseRecOn with
  | nil => exact ⟨[], rfl⟩
  | append_singleton s x ih =>
      have hlast : x.text = [0x20] ∨ ∃ u c, x.text = u ++ [c] ∧ c ≠ 0x20 := by
        cases x with
        | plain b =>
            by_cases hb : b.val = 0x20
            · exact .inl (congrArg (fun c => [c]) hb)
            · exact .inr ⟨[], b.val, rfl, hb⟩
        | escape e => exact .inr ⟨[0x5C], e.letter, rfl, by cases e <;> decide⟩
        | unicode a b c d =>
            refine .inr ⟨[0x5C, 0x75, a.val, b.val, c.val], d.val, rfl, fun hd => ?_⟩
            have hhex := d.property
            rw [hd] at hhex
            exact absurd hhex (by decide)
      have hsplit : bodyText (s ++ [x]) = bodyText s ++ x.text := by
        rw [bodyText_append, bodyText_cons]
        exact congrArg (bodyText s ++ ·) (List.append_nil _)
      rcases hlast with hx | ⟨u, c, hx, hc⟩
      · rw [hsplit, hx, List.rdropWhile_concat_pos _ _ _ rfl]
        exact ih
      · refine ⟨s ++ [x], ?_⟩
        rw [hsplit, hx, ← List.append_assoc, List.rdropWhile_concat_neg _ _ _ (by simpa using hc)]

/-- A string with a comma or a brace in it loses its closing quote. -/
theorem rawValue_cut (w : List Blank) {s : List Item} (h : ∃ b ∈ bodyText s, endsValue b)
    (t : List Byte) :
    ∃ s', rawValue (blanks w ++ 0x22 :: (bodyText s ++ t)) =
      blanks w ++ 0x22 :: bodyText s' := by
  obtain ⟨s₁, hs₁⟩ := takeWhile_bodyText h t
  obtain ⟨s₂, hs₂⟩ := rdropWhile_bodyText s₁
  refine ⟨s₂, ?_⟩
  rw [rawValue, takeWhile_value (fun b => not_endsValue_blank),
    List.takeWhile_cons_of_pos (by decide), hs₁, rdropWhile_append_cons _ (by decide), hs₂]

theorem rawValue_colon (w : List Blank) (t : List Byte) :
    ∃ t', rawValue (blanks w ++ 0x3A :: t) = blanks w ++ 0x3A :: t' := by
  refine ⟨(t.takeWhile fun c => c ≠ 0x2C ∧ c ≠ 0x7D).rdropWhile fun c => c = 0x20, ?_⟩
  rw [rawValue, takeWhile_value (fun b => not_endsValue_blank),
    List.takeWhile_cons_of_pos (by decide), rdropWhile_append_cons _ (by decide)]

/-! ## The id -/

def Spaces (w : List Blank) : Prop := ∀ b ∈ w, b = .space

/-- `json_id_raw` at a member: the raw text from the value on or from the first blank
    that is no space, unless the value comes first and is a string. -/
theorem jsonIdRaw_at {text : List Byte} {m : Member Value} (h : FirstMention text "id" m) :
    ∃ post, (post.head? = some 0x2C ∨ post.head? = some 0x7D) ∧
      ((Spaces m.mid ∧ Spaces m.gap ∧ ∀ c t, m.value.text = c :: t → c ≠ 0x20 → c ≠ 0x3A →
          jsonIdRaw text =
            if c = 0x22 then ascii "\"" ++ jsonEscape (jsonStr text "id") ++ ascii "\""
            else rawValue (m.value.text ++ (blanks m.trail ++ post))) ∨
        (Spaces m.mid ∧ ¬ Spaces m.gap ∧ ∃ w, jsonIdRaw text =
          rawValue (blanks w ++ (m.value.text ++ (blanks m.trail ++ post)))) ∨
        (¬ Spaces m.mid ∧ ∃ w t, jsonIdRaw text = rawValue (blanks w ++ 0x3A :: t))) := by
  obtain ⟨pos, post, hfind, hpost, hrest⟩ := h.found
  refine ⟨post, hpost, ?_⟩
  set skip : Byte → Bool := fun c => c = 0x20 ∨ c = 0x3A with hskip
  have hspaces (w : List Blank) (hw : ∀ b ∈ w, skip b.byte = true) : Spaces w := by
    intro b hb
    have hbyte := hw b hb
    cases b <;> first | rfl | exact absurd hbyte (by decide)
  have hother (b : Blank) (hb : skip b.byte = false) : b ≠ .space := by
    rintro rfl
    exact absurd hb (by decide)
  have heq (c : Byte) (t : List Byte)
      (hdrop : (blanks m.mid ++ 0x3A :: (blanks m.gap ++
        (m.value.text ++ (blanks m.trail ++ post)))).dropWhile skip = c :: t) :
      jsonIdRaw text = if c = 0x22 then ascii "\"" ++ jsonEscape (jsonStr text "id") ++ ascii "\""
        else rawValue (c :: t) := by
    rw [jsonIdRaw, hfind]
    simp only [hrest]
    rw [hdrop]
  have hblank (b : Blank) : b.byte ≠ 0x22 := by
    cases b <;> decide
  -- `json_id_raw` does not skip tabs: it may stop where `json_str` goes on
  rcases dropWhile_colon (p := skip) rfl m.mid m.gap (m.value.text ++ (blanks m.trail ++ post)) with
    ⟨hmid, hgap, hdrop⟩ | ⟨hmid, b, w, hmem, hb, hdrop⟩ | ⟨b, w, hmem, hb, hdrop⟩
  · refine .inl ⟨hspaces _ hmid, hspaces _ hgap, fun c t hvalue hspace hcolon => ?_⟩
    have hstop : skip c = false := decide_eq_false (not_or.mpr ⟨hspace, hcolon⟩)
    rw [hvalue]
    refine heq c (t ++ (blanks m.trail ++ post)) ?_
    rw [hdrop, hvalue]
    exact List.dropWhile_cons_of_neg (by rw [hstop]; exact Bool.false_ne_true)
  · have hraw := (heq _ _ hdrop).trans (if_neg (hblank b))
    exact .inr (.inl ⟨hspaces _ hmid, fun hall => hother b hb (hall b hmem), b :: w, hraw⟩)
  · have hraw := (heq _ _ hdrop).trans (if_neg (hblank b))
    exact .inr (.inr ⟨fun hall => hother b hb (hall b hmem), b :: w, _, hraw⟩)

end NomosRt.Mcp
