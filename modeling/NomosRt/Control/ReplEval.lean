/-
  NomosRt.Control.ReplEval

  `msg_repl_eval`: a text is evaluated and the result sent back, and for the module's
  screen also shown there.

  Texts are put together by concatenation.  `eval` and `lua_to_edn` quote what they
  put between quotes; the reply does not quote the request's `:id`, and the payload for
  the screen cuts a quoted message at the first quote, which may be a quoted one.

  Lua itself is outside: what `eval` finds on the stack is a parameter, and so is
  `edn::parse`.
-/

import NomosRt.Edn
import NomosRt.Lib.EdnText
import Mathlib.Data.List.TakeWhile

namespace NomosRt.Control

open NomosRt.Lib NomosRt.Lib.EdnText

/-! ## `eval` -/

/-- A value on the stack, as `lua_to_edn` sees it: a number with its integer, whether
    that is the number, and its `%g` form; and for other types what `tostring` gives,
    unless it fails. -/
inductive LuaValue where
  | number (integer : Int) (isInteger : Bool) (formatted : Text)
  | boolean (b : Bool)
  | nil
  | string (raw : Text)
  | other (tostring : Option Text)

/-- `lua_to_edn`. -/
def luaToEdn : LuaValue → Text
  | .number integer isInteger formatted =>
      if isInteger then ascii (toString integer) else formatted
  | .boolean b => if b then ascii "true" else ascii "false"
  | .nil => ascii "nil"
  | .string raw => ascii "\"" ++ escape raw ++ ascii "\""
  | .other (some s) => ascii "\"" ++ s ++ ascii "\""
  | .other none => ascii ":unknown"

/-- What `eval` meets on its way. -/
inductive EvalOutcome where
  | stateClosed
  | fennelMissing
  | evalMissing
  | failed (err : Text)
  | returned (val : LuaValue)

/-- An error message between its brackets. -/
def errorText (msg : Text) : Text := ascii "\x7b:error \"" ++ msg ++ ascii "\"\x7d"

/-- `luajit_participant::eval`. -/
def evalText : EvalOutcome → Text
  | .stateClosed => errorText (ascii "Lua state closed")
  | .fennelMissing => errorText (ascii "fennel global missing")
  | .evalMissing => errorText (ascii "fennel.eval missing")
  | .failed err => errorText (escape err)
  | .returned val => luaToEdn val

/-! ## The handler -/

/-- The part of `config` the handler uses; `lua` is null or runs a text. -/
structure ReplConfig (D : Type*) where
  parse : Text → Option (Edn D)
  lua : Option (Text → EvalOutcome)
  ttySink : Bool

/-- `find(b, pos)`. -/
def findFrom (t : Text) (b : Byte) (pos : Nat) : Option Nat :=
  ((t.drop pos).findIdx? (· = b)).map (· + pos)

/-- `substr(pos, n)`. -/
def substr (t : Text) (pos n : Nat) : Text := (t.drop pos).take n

/-- `tty_payload`. -/
def ttyPayload (resultEdn : Text) : Text :=
  if resultEdn.length ≥ 7 ∧ resultEdn.take 7 = ascii "\x7b:error" then
    -- the first two quotes; the second may be one that `eval` has escaped
    let q1 := findFrom resultEdn quote 0
    let q2 := q1.bind fun q1 => findFrom resultEdn quote (q1 + 1)
    match q1, q2 with
    | some q1, some q2 =>
        ascii "\x7b:result nil :error \"" ++ substr resultEdn (q1 + 1) (q2 - q1 - 1) ++
          ascii "\"\x7d"
    | _, _ => ascii "\x7b:result nil :error \"eval error\"\x7d"
  else ascii "\x7b:result " ++ resultEdn ++ ascii " :error nil\x7d"

section Handler

variable {D : Type*}

/-- A string field, or the empty string. -/
def stringField (m : List (Edn D × Edn D)) (kw : String) : Text :=
  match Edn.findKw kw m with
  | some (.string s) => s
  | _ => []

/-- `dest`. -/
def destOf (m : List (Edn D × Edn D)) : String :=
  match Edn.findKw "dest" m with
  | some (.keyword name) => name
  | _ => ""

/-- The evaluation for `:fennel` and `:vcvrack-tty`. -/
def evalResult (cfg : ReplConfig D) (src : Text) : Text :=
  match cfg.lua with
  | some run => evalText (run src)
  | none => errorText (ascii "LuaJIT not loaded")

/-- `result_edn`. -/
def resultEdn (cfg : ReplConfig D) (dest : String) (src : Text) : Text :=
  if dest = "fennel" then evalResult cfg src
  else if dest = "nous" then errorText (ascii "nous forwarding not yet wired")
  else if dest = "vcvrack-tty" then evalResult cfg src
  else errorText (ascii "unknown :dest")

/-- `resp`. -/
def replyText (id result : Text) : Text :=
  ascii "\x7b:id \"" ++ id ++ ascii "\" :result " ++ result ++ ascii "\x7d"

/-- The case `msg_repl_eval`: what is written to the connection and what is shown on
    the screen. -/
def replEval (cfg : ReplConfig D) (connFd : Int) (payload : Text) : Option Text × Option Text :=
  if payload = [] then (none, none)
  else
    match cfg.parse payload with
    | some (.map m) =>
        let result := resultEdn cfg (destOf m) (stringField m "payload")
        (if connFd ≥ 0 then some (replyText (stringField m "id") result) else none,
          if destOf m = "vcvrack-tty" ∧ cfg.ttySink then some (ttyPayload result) else none)
    | _ => (none, none)

end Handler

/-! ## The screen -/

theorem findFrom_append {p : Text} {b : Byte} (hp : b ∉ p) (front t : Text) :
    findFrom (front ++ (p ++ b :: t)) b front.length = some (front.length + p.length) := by
  have hidx : (p ++ b :: t).findIdx? (· = b) = some p.length := by
    rw [List.findIdx?_append, List.findIdx?_eq_none_iff.mpr]
    · rw [List.findIdx?_cons]
      simp
    · intro a ha
      rw [decide_eq_false_iff_not]
      rintro rfl
      exact hp ha
  rw [findFrom, List.drop_left, hidx, Option.map_some, Nat.add_comm]

/-- The message up to its first quote, which may be the closing one. -/
theorem takeWhile_quote (msg rest : Text) :
    ∃ rest', msg ++ quote :: rest = msg.takeWhile (· ≠ quote) ++ quote :: rest' := by
  induction msg with
  | nil => exact ⟨rest, rfl⟩
  | cons b msg ih =>
      by_cases hb : b = quote
      · rw [hb, List.takeWhile_cons_of_neg (by simp)]
        exact ⟨msg ++ quote :: rest, rfl⟩
      · obtain ⟨rest', heq⟩ := ih
        rw [List.takeWhile_cons_of_pos (by simpa using hb), List.cons_append, heq]
        exact ⟨rest', rfl⟩

theorem quote_notMem_takeWhile (msg : Text) : quote ∉ msg.takeWhile (· ≠ quote) := by
  intro h
  have := List.mem_takeWhile_imp h
  exact absurd this (by simp)

/-- An error message is cut at its first quote. -/
theorem ttyPayload_errorText (msg : Text) :
    ttyPayload (errorText msg) =
      ascii "\x7b:result nil :error \"" ++ msg.takeWhile (· ≠ quote) ++ ascii "\"\x7d" := by
  obtain ⟨rest, hmsg⟩ := takeWhile_quote msg (ascii "\x7d")
  have hfree := quote_notMem_takeWhile msg
  generalize msg.takeWhile (· ≠ quote) = cut at hmsg hfree ⊢
  -- the opening quote is at 8, and the next one ends the cut
  have htext : errorText msg = ascii "\x7b:error \"" ++ (cut ++ quote :: rest) := by
    rw [← hmsg, errorText, List.append_assoc]
    rfl
  have hq1 : findFrom (errorText msg) quote 0 = some 8 := by
    rw [htext]
    exact findFrom_append (p := ascii "\x7b:error ") (by decide) [] (cut ++ quote :: rest)
  have hq2 : findFrom (errorText msg) quote 9 = some (9 + cut.length) := by
    rw [htext]
    exact findFrom_append hfree (ascii "\x7b:error \"") rest
  have hinner : substr (errorText msg) 9 (9 + cut.length - 8 - 1) = cut := by
    have hlen : 9 + cut.length - 8 - 1 = cut.length := by omega
    rw [hlen, htext, substr]
    show (cut ++ quote :: rest).take cut.length = cut
    exact List.take_left
  have hprefix : (errorText msg).length ≥ 7 ∧ (errorText msg).take 7 = ascii "\x7b:error" := by
    constructor
    · rw [htext, List.length_append]
      have hlen : (ascii "\x7b:error \"").length = 9 := by decide
      omega
    · rw [htext]
      rfl
  rw [ttyPayload, if_pos hprefix, hq1]
  simp only [Option.bind_some]
  rw [hq2]
  simp only [hinner]

/-- A string is not taken for an error. -/
theorem ttyPayload_string (s : Text) :
    ttyPayload (evalText (.returned (.string s))) =
      ascii "\x7b:result " ++ (ascii "\"" ++ escape s ++ ascii "\"") ++ ascii " :error nil\x7d" := by
  rw [ttyPayload, if_neg]
  · rfl
  · -- it begins with a quote, not with a bracket
    rintro ⟨-, h⟩
    exact absurd (List.cons.inj h).1 (by decide)

/-- The screen shows no result and the error `e`. -/
def ShowsError (payload e : Text) : Prop :=
  ∃ m, Reads payload (.map m) ∧ valueOf (ascii ":result") m = some (.atom (ascii "nil")) ∧
    valueOf (ascii ":error") m = some (.string e)

/-- The screen shows the string `s` and no error. -/
def ShowsString (payload s : Text) : Prop :=
  ∃ m, Reads payload (.map m) ∧ valueOf (ascii ":result") m = some (.string s) ∧
    valueOf (ascii ":error") m = some (.atom (ascii "nil"))

/-- The bracket at the end of every text. -/
theorem isClosing_brace : isClosing 0x7D = true := by decide

theorem tokenEnd_brace : TokenEnd [0x7D] := by
  show isDelimiter 0x7D = true
  decide

theorem items_brace : Derives (.items 0x7D) [0x7D] [] [] := .close .nothing

/-- The payload for an error: the text behind the quote is a string body. -/
theorem reads_errorPayload {t s : Text} (h : StringBody t s (ascii "\x7d")) :
    Reads (ascii "\x7b:result nil :error \"" ++ t)
      (.map [(.atom (ascii ":result"), .atom (ascii "nil")),
        (.atom (ascii ":error"), .string s)]) := by
  have hitems : Derives (.items 0x7D)
      (ascii ":result" ++ 0x20 :: (ascii "nil" ++ 0x20 :: (ascii ":error" ++ 0x20 :: quote :: t)))
      [.atom (ascii ":result"), .atom (ascii "nil"), .atom (ascii ":error"), .string s] [] := by
    apply items_word (by decide)
    apply items_word (by decide)
    apply items_word (by decide)
    exact items_string h items_brace
  exact reads_map hitems rfl

theorem of_reads_errorPayload {t : Text} {v : Form}
    (h : Reads (ascii "\x7b:result nil :error \"" ++ t) v) : ∃ s rest, StringBody t s rest := by
  obtain ⟨vs, m, rest, hitems, -, -⟩ := of_reads_map h
  have hitems' : Derives (.items 0x7D)
      (ascii ":result" ++ 0x20 :: (ascii "nil" ++ 0x20 :: (ascii ":error" ++ 0x20 :: quote :: t)))
      vs rest := hitems
  obtain ⟨vs₁, rfl, h₁⟩ := of_items_word isClosing_brace hitems' (by decide)
  obtain ⟨vs₂, rfl, h₂⟩ := of_items_word isClosing_brace h₁ (by decide)
  obtain ⟨vs₃, rfl, h₃⟩ := of_items_word isClosing_brace h₂ (by decide)
  obtain ⟨s, vs₄, t₂, hs, -, -⟩ := of_items_string isClosing_brace h₃
  exact ⟨s, t₂, hs⟩

theorem escape_append (s t : Text) : escape (s ++ t) = escape s ++ escape t := by
  induction s with
  | nil => rfl
  | cons b s ih =>
      rw [List.cons_append, escape, escape]
      split
      · rw [ih]
        rfl
      · rw [ih]
        rfl

theorem quote_notMem_escape {s : Text} (hs : quote ∉ s) : quote ∉ escape s := by
  induction s with
  | nil => exact List.not_mem_nil
  | cons b s ih =>
      rw [List.mem_cons, not_or] at hs
      rw [escape]
      split
      · rw [List.mem_cons, List.mem_cons, not_or, not_or]
        exact ⟨by decide, hs.1, ih hs.2⟩
      · rw [List.mem_cons, not_or]
        exact ⟨hs.1, ih hs.2⟩

theorem showsError_of_notMem {e : Text} (he : quote ∉ e) :
    ShowsError (ttyPayload (evalText (.failed e))) e := by
  have hwhole : (escape e).takeWhile (· ≠ quote) = escape e := by
    rw [List.takeWhile_eq_self_iff]
    intro b hb
    rw [decide_eq_true_iff]
    rintro rfl
    exact quote_notMem_escape he hb
  have hreads := reads_errorPayload (stringBody_quoted e (ascii "\x7d"))
  rw [← List.append_assoc] at hreads
  rw [evalText, ttyPayload_errorText, hwhole]
  exact ⟨_, hreads, rfl, rfl⟩

/-- A quote in the message leaves the backslash before it in front of the closing
    quote, and the string is never closed. -/
theorem not_showsError_of_mem {e : Text} (he : quote ∈ e) :
    ¬ ShowsError (ttyPayload (evalText (.failed e))) e := by
  rintro ⟨m, hreads, -, -⟩
  -- split at the first quote of the message
  obtain ⟨p, q, rfl, hp⟩ := List.eq_append_cons_of_mem he
  have hcut : (escape (p ++ quote :: q)).takeWhile (· ≠ quote) = escape p ++ [backslash] := by
    have hfree : ∀ b ∈ escape p ++ [backslash], decide (b ≠ quote) = true := by
      intro b hb
      rw [decide_eq_true_iff]
      rintro rfl
      rcases List.mem_append.mp hb with hb | hb
      · exact quote_notMem_escape hp hb
      · exact absurd (List.mem_singleton.mp hb) (by decide)
    have htext : escape (p ++ quote :: q) =
        (escape p ++ [backslash]) ++ quote :: escape q := by
      rw [escape_append, escape, if_pos (.inl rfl), List.append_assoc]
      rfl
    rw [htext, List.takeWhile_append_of_pos hfree, List.takeWhile_cons_of_neg (by simp),
      List.append_nil]
  rw [evalText, ttyPayload_errorText, hcut, List.append_assoc, List.append_assoc] at hreads
  obtain ⟨s, rest, hs⟩ := of_reads_errorPayload hreads
  obtain ⟨s', hs', -⟩ := of_stringBody_escape hs
  -- what is left is a quoted quote and the bracket
  obtain ⟨c, s'', -, -, hbracket⟩ := of_stringBody_backslash hs'
  obtain ⟨s₃, -, hend⟩ := of_stringBody_plain hbracket (by decide) (by decide)
  cases hend

theorem showsString_payload (s : Text) :
    ShowsString (ttyPayload (evalText (.returned (.string s)))) s := by
  have htail : Derives (.items 0x7D) (ascii " :error nil\x7d")
      [.atom (ascii ":error"), .atom (ascii "nil")] [] := by
    have hwords : Derives (.items 0x7D) (0x20 :: (ascii ":error" ++ 0x20 :: (ascii "nil" ++ [0x7D])))
        [.atom (ascii ":error"), .atom (ascii "nil")] [] := by
      apply items_space (by decide)
      apply items_word (by decide)
      exact items_atom (by decide) tokenEnd_brace items_brace
    exact hwords
  have hitems : Derives (.items 0x7D)
      (ascii ":result" ++ 0x20 :: quote :: (escape s ++ quote :: ascii " :error nil\x7d"))
      [.atom (ascii ":result"), .string s, .atom (ascii ":error"), .atom (ascii "nil")] [] :=
    items_word (by decide) (items_string (stringBody_quoted s _) htail)
  have hreads := reads_map hitems rfl
  have htext : ttyPayload (evalText (.returned (.string s))) =
      0x7B :: (ascii ":result" ++ 0x20 :: quote :: (escape s ++ quote :: ascii " :error nil\x7d")) := by
    rw [ttyPayload_string, List.append_assoc, List.append_assoc, List.append_assoc]
    rfl
  rw [htext]
  exact ⟨_, hreads, rfl, rfl⟩

section Screen

variable {D : Type*}

theorem replEval_map (cfg : ReplConfig D) (connFd : Int) {payload : Text}
    {m : List (Edn D × Edn D)} (hne : payload ≠ []) (hparse : cfg.parse payload = some (.map m)) :
    replEval cfg connFd payload =
      (if connFd ≥ 0 then some (replyText (stringField m "id")
        (resultEdn cfg (destOf m) (stringField m "payload"))) else none,
        if destOf m = "vcvrack-tty" ∧ cfg.ttySink then
          some (ttyPayload (resultEdn cfg (destOf m) (stringField m "payload"))) else none) := by
  rw [replEval, if_neg hne, hparse]

/-- An error reaches the screen as it is exactly when there is no quote in it; a string
    always does. -/
theorem tty_error_intact_iff (cfg : ReplConfig D) (connFd : Int) (payload : Text)
    (m : List (Edn D × Edn D)) (run : Text → EvalOutcome) (hne : payload ≠ [])
    (hparse : cfg.parse payload = some (.map m)) (hdest : destOf m = "vcvrack-tty")
    (hsink : cfg.ttySink = true) (hlua : cfg.lua = some run) :
    ∃ shown, (replEval cfg connFd payload).2 = some shown ∧
      (∀ e, run (stringField m "payload") = .failed e → (ShowsError shown e ↔ quote ∉ e)) ∧
      ∀ s, run (stringField m "payload") = .returned (.string s) → ShowsString shown s := by
  have hresult : resultEdn cfg (destOf m) (stringField m "payload") =
      evalText (run (stringField m "payload")) := by
    rw [hdest]
    show evalResult cfg (stringField m "payload") = _
    rw [evalResult, hlua]
  refine ⟨ttyPayload (evalText (run (stringField m "payload"))), ?_, ?_, ?_⟩
  · rw [replEval_map cfg connFd hne hparse, hresult]
    exact if_pos ⟨hdest, hsink⟩
  · intro e he
    rw [he]
    constructor
    · intro hshows hmem
      exact not_showsError_of_mem hmem hshows
    · exact showsError_of_notMem
  · intro s hs
    rw [hs]
    exact showsString_payload s

end Screen

/-- A request for the screen whose evaluation fails with a message. -/
def ttyRequest (err : Text) : ReplConfig Int where
  parse _ := some (.map [(.keyword "dest", .keyword "vcvrack-tty"),
    (.keyword "payload", .string (ascii "(f)"))])
  lua := some fun _ => .failed err
  ttySink := true

theorem tty_error_intact_plain :
    ∃ shown, (replEval (ttyRequest (ascii "no f")) 3 (ascii "\x7b\x7d")).2 = some shown ∧
      ShowsError shown (ascii "no f") := by
  obtain ⟨shown, hshown, herror, -⟩ :=
    tty_error_intact_iff (ttyRequest (ascii "no f")) 3 (ascii "\x7b\x7d") _ _ (by decide) rfl rfl
      rfl rfl
  exact ⟨shown, hshown, (herror _ rfl).mpr (by decide)⟩

/-- `unknown "f"` is cut at its first quote, whose backslash then quotes the closing
    one. -/
theorem tty_error_cut_at_quote :
    ∃ shown, (replEval (ttyRequest (ascii "unknown \"f\"")) 3 (ascii "\x7b\x7d")).2 = some shown ∧
      shown = ascii "\x7b:result nil :error \"unknown \\\"\x7d" ∧
      ¬ ShowsError shown (ascii "unknown \"f\"") :=
  ⟨_, rfl, by decide +kernel, not_showsError_of_mem (by decide)⟩

/-! ## The reply -/

/-- The reply is a map with the request's id and one further entry. -/
def MatchesRequest (id reply : Text) : Prop :=
  ∃ m, Reads reply (.map m) ∧ valueOf (ascii ":id") m = some (.string id) ∧ m.length = 2

theorem replyText_eq (id result : Text) :
    replyText id result = 0x7B :: (ascii ":id" ++ 0x20 :: quote ::
      (id ++ quote :: 0x20 :: (ascii ":result" ++ 0x20 :: (result ++ [0x7D])))) := by
  rw [replyText, List.append_assoc, List.append_assoc, List.append_assoc]
  rfl

theorem matchesRequest_of_clean {id result : Text} (hq : quote ∉ id) (hb : backslash ∉ id)
    (hresult : WellFormed result) : MatchesRequest id (replyText id result) := by
  obtain ⟨v, t₁, t₂, h₁, h₂, h₃⟩ := hresult
  -- the result is read as before, now with the bracket behind it
  have hvalue : Derives (.items 0x7D) (result ++ [0x7D]) [v] [] :=
    .item (h₁.append tokenEnd_brace) (h₂.append tokenEnd_brace) (.close (h₃.append tokenEnd_brace))
  have hbody (t : Text) : StringBody (id ++ quote :: t) id t := by
    have h := stringBody_quoted id t
    rwa [escape_of_clean hq hb] at h
  have hitems : Derives (.items 0x7D) (ascii ":id" ++ 0x20 :: quote ::
      (id ++ quote :: 0x20 :: (ascii ":result" ++ 0x20 :: (result ++ [0x7D]))))
      [.atom (ascii ":id"), .string id, .atom (ascii ":result"), v] [] := by
    apply items_word (by decide)
    apply items_string (hbody _)
    apply items_space (by decide)
    exact items_word (by decide) hvalue
  have hreads := reads_map hitems rfl
  rw [replyText_eq]
  exact ⟨_, hreads, rfl, rfl⟩

theorem clean_of_matchesRequest {id result : Text} (h : MatchesRequest id (replyText id result)) :
    quote ∉ id ∧ backslash ∉ id := by
  obtain ⟨m, hreads, hid, -⟩ := h
  rw [replyText_eq] at hreads
  obtain ⟨vs, m', rest, hitems, hpairs, hm⟩ := of_reads_map hreads
  obtain rfl := Form.map.inj hm
  obtain ⟨vs₁, rfl, h₁⟩ := of_items_word isClosing_brace hitems (by decide)
  obtain ⟨s, vs₂, t₂, hs, rfl, -⟩ := of_items_string isClosing_brace h₁
  -- the first entry is `:id` with the string that was read
  rw [pairs, Option.map_eq_some_iff] at hpairs
  obtain ⟨m', -, rfl⟩ := hpairs
  have hvalue : some (Form.string s) = some (.string id) := hid
  obtain rfl := Form.string.inj (Option.some.inj hvalue)
  exact (clean_of_stringBody (z := []) hs List.not_mem_nil).2

theorem wellFormed_errorText (e : Text) : WellFormed (errorText (escape e)) := by
  have hitems : Derives (.items 0x7D)
      (ascii ":error" ++ 0x20 :: quote :: (escape e ++ quote :: [0x7D]))
      [.atom (ascii ":error"), .string e] [] :=
    items_word (by decide) (items_string (stringBody_quoted e _) items_brace)
  have hreads := reads_map hitems rfl
  rw [errorText, List.append_assoc]
  exact ⟨_, hreads⟩

section Reply

variable {D : Type*}

/-- All five sources of a result are well-formed when the evaluation is. -/
theorem wellFormed_resultEdn (cfg : ReplConfig D) (dest : String) (src : Text)
    (heval : ∀ run, cfg.lua = some run → WellFormed (evalText (run src))) :
    WellFormed (resultEdn cfg dest src) := by
  -- the handler's own messages need no quoting
  have hfixed {msg : Text} (hq : quote ∉ msg) (hb : backslash ∉ msg) :
      WellFormed (errorText msg) := by
    have h := wellFormed_errorText msg
    rwa [escape_of_clean hq hb] at h
  have hresult : WellFormed (evalResult cfg src) := by
    unfold evalResult
    cases hlua : cfg.lua with
    | none => exact hfixed (by decide) (by decide)
    | some run => exact heval run hlua
  unfold resultEdn
  split
  · exact hresult
  split
  · exact hfixed (by decide) (by decide)
  split
  · exact hresult
  · exact hfixed (by decide) (by decide)

/-- A reply can be matched to its request exactly when the request's id has neither a
    quote nor a backslash, whatever the destination and the well-formed result. -/
theorem repl_reply_matches_iff (cfg : ReplConfig D) (connFd : Int) (payload : Text)
    (m : List (Edn D × Edn D)) (id : Text) (hfd : 0 ≤ connFd) (hne : payload ≠ [])
    (hparse : cfg.parse payload = some (.map m)) (hid : Edn.findKw "id" m = some (.string id))
    (heval : ∀ run, cfg.lua = some run → WellFormed (evalText (run (stringField m "payload")))) :
    ∃ reply, (replEval cfg connFd payload).1 = some reply ∧
      (MatchesRequest id reply ↔ quote ∉ id ∧ backslash ∉ id) := by
  have hfield : stringField m "id" = id := by
    rw [stringField, hid]
  have hresult := wellFormed_resultEdn cfg (destOf m) (stringField m "payload") heval
  rw [replEval_map cfg connFd hne hparse, hfield, if_pos hfd]
  refine ⟨_, rfl, clean_of_matchesRequest, ?_⟩
  rintro ⟨hq, hb⟩
  exact matchesRequest_of_clean hq hb hresult

end Reply

/-- A request with an id, for a destination that needs no evaluation. -/
def idRequest (id : Text) : ReplConfig Int where
  parse _ := some (.map [(.keyword "id", .string id), (.keyword "dest", .keyword "nous")])
  lua := none
  ttySink := false

theorem repl_reply_matches_counter :
    ∃ reply, (replEval (idRequest (ascii "req-1")) 3 (ascii "\x7b\x7d")).1 = some reply ∧
      MatchesRequest (ascii "req-1") reply := by
  obtain ⟨reply, hreply, hiff⟩ := repl_reply_matches_iff (idRequest (ascii "req-1")) 3
    (ascii "\x7b\x7d") _ (ascii "req-1") (by decide) (by decide) rfl rfl
    (fun run h => by cases h)
  exact ⟨reply, hreply, hiff.mpr (by decide)⟩

/-- The id `a"b` ends early. -/
theorem repl_reply_id_unquoted :
    ∃ reply, (replEval (idRequest (ascii "a\"b")) 3 (ascii "\x7b\x7d")).1 = some reply ∧
      ¬ MatchesRequest (ascii "a\"b") reply := by
  refine ⟨_, rfl, ?_⟩
  intro h
  exact (clean_of_matchesRequest h).1 (by decide)

end NomosRt.Control
