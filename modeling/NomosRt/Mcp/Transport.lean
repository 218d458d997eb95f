/-
  NomosRt.Mcp.Transport

  An `evaluate` request on its way through nomos-mcp: from the JSON text of the request
  to the EDN payload of the frame, and its id to the response.

  The text passes the loop of `json_str`, the prefix in front of the expression, and
  `json_escape` into an EDN string.  The loop knows the escapes of JSON but for `\b`,
  `\f` and `\uXXXX`, of which it keeps the letters; the last step loses nothing.  What
  arrives is the routed expression exactly when the loop knew all escapes and the
  prefix was one it takes off.
-/

import NomosRt.Mcp.Request
import NomosRt.Lib.EdnText

namespace NomosRt.Mcp

open NomosRt.Lib NomosRt.Lib.JsonText NomosRt.Lib.EdnText NomosRt.Ipc

/-! ## The loop against the meaning of a string -/

/-- The items the loop knows. -/
def isSimple : Item → Bool
  | .plain _ => true
  | .escape .backspace => false
  | .escape .formFeed => false
  | .escape _ => true
  | .unicode .. => false

def Simple (s : List Item) : Prop := ∀ x ∈ s, isSimple x = true

theorem unit_of_isSimple {x : Item} (h : isSimple x = true) : x.unit? = none := by
  cases x with
  | plain b => rfl
  | escape e => rfl
  | unicode a b c d => cases h

theorem taken_of_isSimple {x : Item} (h : isSimple x = true) : taken x = x.bytes := by
  cases x with
  | plain b => rfl
  | escape e => cases e <;> first | rfl | cases h
  | unicode a b c d => cases h

theorem Simple.flatMap_taken {s : List Item} (h : Simple s) :
    s.flatMap taken = s.flatMap Item.bytes := by
  induction s with
  | nil => rfl
  | cons x s ih =>
      rw [List.flatMap_cons, List.flatMap_cons, taken_of_isSimple (h x List.mem_cons_self),
        ih fun y hy => h y (List.mem_cons_of_mem _ hy)]

theorem Simple.decode_append {s : List Item} (h : Simple s) (t : List Item) :
    decode (s ++ t) = s.flatMap taken ++ decode t := by
  rw [JsonText.decode_append fun x hx => unit_of_isSimple (h x hx), h.flatMap_taken]

theorem Simple.decode_eq {s : List Item} (h : Simple s) : decode s = s.flatMap taken := by
  rw [decode_eq_flatMap fun x hx => unit_of_isSimple (h x hx), h.flatMap_taken]

/-- A string that is not simple splits at the first item the loop does not know. -/
theorem exists_first_of_not_simple {s : List Item} (h : ¬ Simple s) :
    ∃ s₁ x s₂, s = s₁ ++ x :: s₂ ∧ Simple s₁ ∧ isSimple x = false := by
  induction s with
  | nil => exact absurd (fun x hx => absurd hx List.not_mem_nil) h
  | cons x s ih =>
      cases hx : isSimple x with
      | false => exact ⟨[], x, s, rfl, fun y hy => absurd hy List.not_mem_nil, hx⟩
      | true =>
          have hs : ¬ Simple s := by
            intro hs
            refine h fun y hy => ?_
            rcases List.mem_cons.mp hy with rfl | hy
            · exact hx
            · exact hs y hy
          obtain ⟨s₁, x', s₂, rfl, hs₁, hx'⟩ := ih hs
          refine ⟨x :: s₁, x', s₂, rfl, fun y hy => ?_, hx'⟩
          rcases List.mem_cons.mp hy with rfl | hy
          · exact hx
          · exact hs₁ y hy

def isUnicode (x : Item) : Bool := x.unit?.isSome

/-- The loop makes five bytes of a `\uXXXX`, which stands for three at most, and a
    surrogate pair for four. -/
theorem length_decode_add (s : List Item) :
    (decode s).length + 2 * s.countP isUnicode ≤ (s.flatMap taken).length := by
  have hitem (x : Item) : x.bytes.length + 2 * [x].countP isUnicode ≤ (taken x).length := by
    cases x with
    | plain b => exact le_refl 1
    | escape e => exact le_refl 1
    | unicode a b c d => exact Nat.add_le_add_right (length_utf8_le_three (codeUnit_lt a b c d)) 2
  fun_induction decode s with
  | case1 => exact Nat.zero_le _
  | case2 x =>
      rw [List.flatMap_singleton]
      exact hitem x
  | case3 x y s n hpair ih =>
      obtain ⟨⟨a, b, c, d, rfl⟩, a', b', c', d', rfl⟩ := unit_of_pair hpair
      have hpoint := length_utf8_le_four n
      rw [List.countP_cons_of_pos rfl, List.countP_cons_of_pos rfl]
      simp only [List.flatMap_cons, List.length_append, taken, List.length_cons, List.length_nil]
      omega
  | case4 x y s hpair ih =>
      have hx := hitem x
      have hcount : ([x] ++ y :: s).countP isUnicode =
          [x].countP isUnicode + (y :: s).countP isUnicode := List.countP_append
      rw [List.singleton_append] at hcount
      rw [hcount, List.flatMap_cons, List.length_append, List.length_append]
      omega

/-- The loop makes no backspace and no form feed. -/
theorem control_notMem_taken {c : Byte} (hc : c = 0x08 ∨ c = 0x0C) (s : List Item) :
    c ∉ s.flatMap taken := by
  intro hmem
  obtain ⟨x, -, hx⟩ := List.mem_flatMap.mp hmem
  have hno : isPlain c = false := by
    rcases hc with rfl | rfl <;> rfl
  have hplain {b : Byte} (hb : isPlain b = true) : c ≠ b := (ne_of_kind hb hno).symm
  cases x with
  | plain b => exact hplain b.property (List.mem_singleton.mp hx)
  | escape e => rcases hc with rfl | rfl <;> cases e <;> exact absurd hx (by decide)
  | unicode a b c' d =>
      simp only [taken, List.mem_cons, List.not_mem_nil, or_false] at hx
      rcases hx with h | h | h | h | h
      · exact hplain rfl h
      · exact hplain (isPlain_of_isHex a.property) h
      · exact hplain (isPlain_of_isHex b.property) h
      · exact hplain (isPlain_of_isHex c'.property) h
      · exact hplain (isPlain_of_isHex d.property) h

theorem control_of_not_simple {e : Escape} (h : isSimple (.escape e) = false) :
    e.byte = 0x08 ∨ e.byte = 0x0C := by
  cases e <;> first | exact .inl rfl | exact .inr rfl | cases h

/-- The loop gives a string its meaning exactly when it knows all its escapes. -/
theorem taken_eq_decode_iff (s : List Item) : s.flatMap taken = decode s ↔ Simple s := by
  refine ⟨fun heq => ?_, fun h => h.decode_eq.symm⟩
  intro x hx
  cases hsimple : isSimple x with
  | true => rfl
  | false =>
      exfalso
      cases x with
      | plain b => cases hsimple
      | escape e =>
          have hmem := byte_mem_decode hx
          rw [← heq] at hmem
          exact control_notMem_taken (control_of_not_simple hsimple) s hmem
      | unicode a b c d =>
          have hlen := length_decode_add s
          have hcount : 0 < s.countP isUnicode := List.countP_pos_iff.mpr ⟨_, hx, rfl⟩
          rw [heq] at hlen
          omega

/-! ## The prefix -/

/-- A blank behind the prefix. -/
def isGap (c : Byte) : Bool := c = 0x20 ∨ c = 0x09

/-- What stands behind a routing prefix. -/
def unprefixed : List Byte → Option (List Byte)
  | a :: b :: rest => if a = 0x23 ∧ (b = 0x76 ∨ b = 0x66 ∨ b = 0x6E) then some rest else none
  | _ => none

/-- The expression without its routing prefix and the blanks behind the prefix. -/
def routed (expr : List Byte) : List Byte :=
  match unprefixed expr with
  | some rest => rest.dropWhile isGap
  | none => expr

/-- What `handle_evaluate` makes of the expression. -/
def stripped (expr : List Byte) : List Byte := (destination expr).2.dropWhile isGap

/-- Something stands behind a prefix; without one, the expression does not begin with a
    blank. -/
def PrefixServes (expr : List Byte) : Prop :=
  match unprefixed expr with
  | some rest => rest ≠ []
  | none => expr.head?.map isGap ≠ some true

theorem eq_of_unprefixed {expr rest : List Byte} (h : unprefixed expr = some rest) :
    ∃ b, (b = 0x76 ∨ b = 0x66 ∨ b = 0x6E) ∧ expr = 0x23 :: b :: rest := by
  unfold unprefixed at h
  split at h
  · split at h
    · rename_i hcond
      obtain ⟨rfl, hb⟩ := hcond
      exact ⟨_, hb, by rw [Option.some.inj h]⟩
    · cases h
  · cases h

theorem stripped_of_unprefixed {expr rest : List Byte} (h : unprefixed expr = some rest)
    (hrest : rest ≠ []) : stripped expr = rest.dropWhile isGap := by
  obtain ⟨b, hb, rfl⟩ := eq_of_unprefixed h
  cases rest with
  | nil => exact absurd rfl hrest
  | cons c rest => rcases hb with rfl | rfl | rfl <;> rfl

theorem stripped_bare {expr : List Byte} (h : unprefixed expr = some []) :
    stripped expr = expr := by
  obtain ⟨b, hb, rfl⟩ := eq_of_unprefixed h
  rcases hb with rfl | rfl | rfl <;> rfl

theorem stripped_of_not_prefixed {expr : List Byte} (h : unprefixed expr = none) :
    stripped expr = expr.dropWhile isGap := by
  unfold stripped destination
  split
  · exact absurd h (by simp [unprefixed])
  · exact absurd h (by simp [unprefixed])
  · exact absurd h (by simp [unprefixed])
  · rfl

/-- Nothing begins with a blank once its blanks are gone. -/
theorem dropWhile_isGap_head (t : List Byte) : (t.dropWhile isGap).head?.map isGap ≠ some true := by
  intro h
  obtain ⟨b, hb, hgap⟩ := Option.map_eq_some_iff.mp h
  have hno := List.head?_dropWhile_not isGap t
  rw [hb] at hno
  have hno' : isGap b = false := hno
  rw [hgap] at hno'
  cases hno'

/-- On its own the expression arrives exactly when its prefix serves. -/
theorem stripped_eq_routed_iff (expr : List Byte) :
    stripped expr = routed expr ↔ PrefixServes expr := by
  unfold routed PrefixServes
  cases h : unprefixed expr with
  | some rest =>
      show stripped expr = rest.dropWhile isGap ↔ rest ≠ []
      cases rest with
      | nil =>
          obtain ⟨b, -, hexpr⟩ := eq_of_unprefixed h
          rw [stripped_bare h, hexpr]
          simp
      | cons c rest =>
          rw [stripped_of_unprefixed h (List.cons_ne_nil _ _)]
          simp
  | none =>
      show stripped expr = expr ↔ expr.head?.map isGap ≠ some true
      rw [stripped_of_not_prefixed h]
      refine ⟨fun heq => ?_, fun hhead => ?_⟩
      · rw [← heq]
        exact dropWhile_isGap_head expr
      · cases expr with
        | nil => rfl
        | cons c expr => exact List.dropWhile_cons_of_neg fun hc => hhead (congrArg some hc)

theorem length_routed_le (expr : List Byte) : (routed expr).length ≤ expr.length := by
  unfold routed
  cases h : unprefixed expr with
  | some rest =>
      obtain ⟨b, -, rfl⟩ := eq_of_unprefixed h
      show (rest.dropWhile isGap).length ≤ rest.length + 1 + 1
      have hle := (List.dropWhile_suffix isGap (l := rest)).length_le
      omega
  | none => exact le_refl _

/-- No byte but those of the prefix and the blanks is lost. -/
theorem mem_routed {expr : List Byte} {c : Byte} (hc : c = 0x08 ∨ c = 0x0C) (h : c ∈ expr) :
    c ∈ routed expr := by
  have hkeep (t : List Byte) (ht : c ∈ t) : c ∈ t.dropWhile isGap := by
    have hsplit := List.takeWhile_append_dropWhile (p := isGap) (l := t)
    rw [← hsplit] at ht
    refine (List.mem_append.mp ht).resolve_left fun htake => ?_
    have hgap := List.mem_takeWhile_imp htake
    rcases hc with rfl | rfl <;> exact absurd hgap (by decide)
  unfold routed
  cases hpre : unprefixed expr with
  | some rest =>
      obtain ⟨b, hb, rfl⟩ := eq_of_unprefixed hpre
      refine hkeep rest ?_
      rcases List.mem_cons.mp h with h | h
      · rcases hc with rfl | rfl <;> exact absurd h (by decide)
      · rcases List.mem_cons.mp h with h | h
        · rcases hc with rfl | rfl <;> rcases hb with rfl | rfl | rfl <;> exact absurd h (by decide)
        · exact h
  | none => exact h

theorem mem_of_mem_stripped {expr : List Byte} {c : Byte} (h : c ∈ stripped expr) : c ∈ expr := by
  cases hpre : unprefixed expr with
  | some rest =>
      cases rest with
      | nil =>
          rw [stripped_bare hpre] at h
          exact h
      | cons x rest =>
          rw [stripped_of_unprefixed hpre (List.cons_ne_nil _ _)] at h
          obtain ⟨b, -, rfl⟩ := eq_of_unprefixed hpre
          have hmem := (List.dropWhile_suffix isGap).subset h
          exact List.mem_cons_of_mem _ (List.mem_cons_of_mem _ hmem)
  | none =>
      rw [stripped_of_not_prefixed hpre] at h
      exact (List.dropWhile_suffix isGap).subset h

/-- Of two texts that go on differently behind a common part, the one that goes on with
    a `u` loses no more of it. -/
theorem length_dropWhile_lt (common : List Byte) {t t' : List Byte}
    (hlen : t.length < t'.length + 1) :
    ((common ++ t).dropWhile isGap).length < ((common ++ 0x75 :: t').dropWhile isGap).length := by
  induction common with
  | nil =>
      have hle := (List.dropWhile_suffix isGap (l := t)).length_le
      show (t.dropWhile isGap).length < t'.length + 1
      omega
  | cons c common ih =>
      rw [List.cons_append, List.cons_append]
      cases hc : isGap c with
      | true =>
          rw [List.dropWhile_cons_of_pos hc, List.dropWhile_cons_of_pos hc]
          exact ih
      | false =>
          have hno : ¬ isGap c = true := by
            rw [hc]
            exact Bool.false_ne_true
          rw [List.dropWhile_cons_of_neg hno, List.dropWhile_cons_of_neg hno]
          simp only [List.length_cons, List.length_append]
          omega

/-- Nothing is taken off an expression that begins with a blank. -/
theorem routed_of_isGap {c : Byte} (hc : isGap c = true) (t : List Byte) :
    routed (c :: t) = c :: t := by
  unfold routed
  cases hpre : unprefixed (c :: t) with
  | none => rfl
  | some rest =>
      obtain ⟨b, -, heq⟩ := eq_of_unprefixed hpre
      rw [(List.cons.inj heq).1] at hc
      exact absurd hc (by decide)

/-- A prefix in front of a `u` is all in front of it, as no byte of it is a `u`. -/
theorem unprefixed_append_u {common t rest : List Byte}
    (h : unprefixed (common ++ 0x75 :: t) = some rest) :
    ∃ b common', (b = 0x76 ∨ b = 0x66 ∨ b = 0x6E) ∧ common = 0x23 :: b :: common' ∧
      rest = common' ++ 0x75 :: t := by
  obtain ⟨b, hb, heq⟩ := eq_of_unprefixed h
  cases common with
  | nil => exact absurd (List.cons.inj heq).1 (by decide)
  | cons c common =>
      obtain ⟨hc, hrest⟩ := List.cons.inj heq
      cases common with
      | nil =>
          have hu : (0x75 : Byte) = b := (List.cons.inj hrest).1
          rcases hb with rfl | rfl | rfl <;> exact absurd hu (by decide)
      | cons d common =>
          obtain ⟨hd, hrest⟩ := List.cons.inj hrest
          exact ⟨b, common, hb, by rw [hc, hd], hrest.symm⟩

/-- An escape that is kept as its letters is not made up for by what is taken off in
    front. -/
theorem stripped_ne_routed (common : List Byte) {t : List Byte} (t' : List Byte)
    (hlen : t.length < t'.length + 1) :
    stripped (common ++ 0x75 :: t') ≠ routed (common ++ t) := by
  intro heq
  cases hpre : unprefixed (common ++ 0x75 :: t') with
  | none =>
      rw [stripped_of_not_prefixed hpre] at heq
      by_cases hgap : ∃ c common', common = c :: common' ∧ isGap c = true
      · -- a blank in front is dropped, and is still in front of what was meant
        obtain ⟨c, common', rfl, hc⟩ := hgap
        rw [List.cons_append, List.cons_append, routed_of_isGap hc] at heq
        refine dropWhile_isGap_head (c :: (common' ++ 0x75 :: t')) ?_
        rw [heq]
        exact congrArg some hc
      · -- nothing is dropped, and what was meant is shorter
        have hkept : (common ++ 0x75 :: t').dropWhile isGap = common ++ 0x75 :: t' := by
          cases common with
          | nil => rfl
          | cons c common' =>
              exact List.dropWhile_cons_of_neg fun hc => hgap ⟨c, common', rfl, hc⟩
        have hle := length_routed_le (common ++ t)
        rw [← heq, hkept, List.length_append, List.length_append, List.length_cons] at hle
        omega
  | some rest =>
      obtain ⟨b, common', hb, rfl, rfl⟩ := unprefixed_append_u hpre
      have hpre' : unprefixed (0x23 :: b :: common' ++ t) = some (common' ++ t) :=
        if_pos ⟨rfl, hb⟩
      have hlt := length_dropWhile_lt common' hlen
      rw [stripped_of_unprefixed hpre (by simp), routed, hpre'] at heq
      rw [heq] at hlt
      exact absurd hlt (lt_irrefl _)

/-- The expression arrives exactly when the loop knows its escapes and its prefix
    serves. -/
theorem stripped_taken_iff (s : List Item) :
    stripped (s.flatMap taken) = routed (decode s) ↔ Simple s ∧ PrefixServes (decode s) := by
  refine ⟨fun heq => ?_, ?_⟩
  · have hsimple : Simple s := by
      by_contra hs
      obtain ⟨s₁, x, s₂, rfl, hs₁, hx⟩ := exists_first_of_not_simple hs
      cases x with
      | plain b => cases hx
      | escape e =>
          -- the control character is in the expression but not in what arrives
          have hc := control_of_not_simple hx
          have hmem : e.byte ∈ decode (s₁ ++ .escape e :: s₂) :=
            byte_mem_decode (List.mem_append_right s₁ List.mem_cons_self)
          have hmem := mem_routed hc hmem
          rw [← heq] at hmem
          exact control_notMem_taken hc _ (mem_of_mem_stripped hmem)
      | unicode a b c d =>
          have hlen := length_decode_add (.unicode a b c d :: s₂)
          rw [List.countP_cons_of_pos rfl, List.flatMap_cons, List.length_append] at hlen
          rw [List.flatMap_append, hs₁.decode_append, List.flatMap_cons] at heq
          refine stripped_ne_routed (s₁.flatMap taken)
            ([a.val, b.val, c.val, d.val] ++ s₂.flatMap taken) ?_ heq
          rw [List.length_append]
          simp only [taken, List.length_cons, List.length_nil] at hlen ⊢
          omega
    rw [← hsimple.decode_eq, stripped_eq_routed_iff] at heq
    exact ⟨hsimple, heq⟩
  · rintro ⟨hsimple, hprefix⟩
    rw [← hsimple.decode_eq]
    exact (stripped_eq_routed_iff _).mpr hprefix

/-! ## The payload of the frame -/

/-- The payload is read as a map whose `:payload` is the string. -/
def ReadsPayload (payload v : List Byte) : Prop :=
  ∃ m, Reads payload (.map m) ∧ valueOf (ascii ":payload") m = some (.string v)

theorem jsonEscape_append (s t : List Byte) : jsonEscape (s ++ t) = jsonEscape s ++ jsonEscape t :=
  List.flatMap_append

theorem jsonEscape_cons (c : Byte) (s : List Byte) :
    jsonEscape (c :: s) = jsonEscape [c] ++ jsonEscape s := jsonEscape_append [c] s

/-- What `json_escape` writes is read back as an EDN string. -/
theorem stringBody_jsonEscape (s rest : List Byte) :
    StringBody (jsonEscape s ++ quote :: rest) s rest := by
  induction s with
  | nil => exact .close
  | cons c s ih =>
      rw [jsonEscape_cons, List.append_assoc, jsonEscape, List.flatMap_singleton]
      -- the tests of `json_escape` in their order; each escape it writes EDN reads back
      by_cases hquote : c = 0x22
      · rw [if_pos hquote, hquote]
        exact .escape rfl ih
      rw [if_neg hquote]
      by_cases hslash : c = 0x5C
      · rw [if_pos hslash, hslash]
        exact .escape rfl ih
      rw [if_neg hslash]
      by_cases hnewline : c = 0x0A
      · rw [if_pos hnewline, hnewline]
        exact .escape (b := 0x6E) rfl ih
      rw [if_neg hnewline]
      by_cases hreturn : c = 0x0D
      · rw [if_pos hreturn, hreturn]
        exact .escape (b := 0x72) rfl ih
      rw [if_neg hreturn]
      by_cases htab : c = 0x09
      · rw [if_pos htab, htab]
        exact .escape (b := 0x74) rfl ih
      rw [if_neg htab]
      exact .plain hquote hslash ih

theorem destination_fst (expr : List Byte) :
    (destination expr).1 = "vcvrack-tty" ∨ (destination expr).1 = "fennel" ∨
      (destination expr).1 = "nous" := by
  unfold destination
  split
  · exact .inl rfl
  · exact .inr (.inl rfl)
  · exact .inr (.inr rfl)
  · exact .inr (.inl rfl)

/-- The destination is written as a keyword. -/
theorem destination_isWord (expr : List Byte) :
    isAtom (ascii ":" ++ ascii (destination expr).1) = true ∧
      isWord (ascii ":" ++ ascii (destination expr).1) = true := by
  rcases destination_fst expr with h | h | h <;> rw [h] <;> decide

/-- What the payload of the expression holds behind its bracket. -/
def evalItems (expr : List Byte) : List Form :=
  [.atom (ascii ":dest"), .atom (ascii ":" ++ ascii (destination expr).1), .atom (ascii ":payload"),
    .string (stripped expr), .atom (ascii ":id"), .string (ascii "mcp")]

/-- The payload without its bracket. -/
def evalTail (expr : List Byte) : List Byte :=
  ascii ":dest" ++ 0x20 :: ((ascii ":" ++ ascii (destination expr).1) ++ 0x20 ::
    (ascii ":payload" ++ 0x20 :: quote :: (jsonEscape (stripped expr) ++ quote ::
      ascii " :id \"mcp\"\x7d")))

theorem evalPayload_eq (expr : List Byte) : evalPayload expr = 0x7B :: evalTail expr := by
  show ascii "\x7b:dest :" ++ ascii (destination expr).1 ++ ascii " :payload \"" ++
    jsonEscape (stripped expr) ++ ascii "\" :id \"mcp\"\x7d" = _
  rw [evalTail]
  simp only [List.append_assoc]
  rfl

theorem items_evalTail (expr : List Byte) :
    Derives (.items 0x7D) (evalTail expr) (evalItems expr) [] := by
  obtain ⟨hatom, -⟩ := destination_isWord expr
  have hbody := stringBody_jsonEscape (stripped expr) (ascii " :id \"mcp\"\x7d")
  have hmcp : StringBody (ascii "mcp" ++ quote :: [0x7D]) (ascii "mcp") [0x7D] :=
    stringBody_quoted (ascii "mcp") [0x7D]
  have hid : Derives (.items 0x7D) (ascii ":id" ++ 0x20 :: quote :: (ascii "mcp" ++ quote :: [0x7D]))
      [.atom (ascii ":id"), .string (ascii "mcp")] [] :=
    items_word (by decide) (items_string hmcp (.close .nothing))
  have htail : Derives (.items 0x7D) (ascii " :id \"mcp\"\x7d")
      [.atom (ascii ":id"), .string (ascii "mcp")] [] := items_space (b := 0x20) rfl hid
  have hpayload : Derives (.items 0x7D) (ascii ":payload" ++ 0x20 :: quote ::
      (jsonEscape (stripped expr) ++ quote :: ascii " :id \"mcp\"\x7d"))
      [.atom (ascii ":payload"), .string (stripped expr), .atom (ascii ":id"),
        .string (ascii "mcp")] [] := items_word (by decide) (items_string hbody htail)
  exact items_word (by decide) (items_word hatom hpayload)

/-- The payload is read in one way, up to its last byte. -/
theorem of_items_evalTail {expr rest : List Byte} {vs : List Form}
    (h : Derives (.items 0x7D) (evalTail expr) vs rest) : vs = evalItems expr ∧ rest = [] := by
  obtain ⟨-, hword⟩ := destination_isWord expr
  have hbody := stringBody_jsonEscape (stripped expr) (ascii " :id \"mcp\"\x7d")
  have hmcp : StringBody (ascii "mcp" ++ quote :: [0x7D]) (ascii "mcp") [0x7D] :=
    stringBody_quoted (ascii "mcp") [0x7D]
  obtain ⟨vs₁, rfl, h₁⟩ := of_items_word (by decide) h (by decide)
  obtain ⟨vs₂, rfl, h₂⟩ := of_items_word (by decide) h₁ hword
  obtain ⟨vs₃, rfl, h₃⟩ := of_items_word (by decide) h₂ (by decide)
  obtain ⟨s, vs₄, t₂, hs, rfl, h₄⟩ := of_items_string (by decide) h₃
  obtain ⟨rfl, rfl⟩ := hs.unique hbody
  have h₅ : Derives (.items 0x7D) (ascii ":id" ++ 0x20 :: quote ::
      (ascii "mcp" ++ quote :: [0x7D])) vs₄ rest := of_items_space (by decide) h₄ (by decide)
  obtain ⟨vs₅, rfl, h₆⟩ := of_items_word (by decide) h₅ (by decide)
  obtain ⟨s', vs₆, t₃, hs', rfl, h₇⟩ := of_items_string (by decide) h₆
  obtain ⟨rfl, rfl⟩ := hs'.unique hmcp
  obtain ⟨rfl, rfl⟩ := of_items_close (by decide) h₇
  exact ⟨rfl, rfl⟩

/-- The server reads the stripped expression and nothing else. -/
theorem readsPayload_iff (expr v : List Byte) :
    ReadsPayload (evalPayload expr) v ↔ v = stripped expr := by
  rw [evalPayload_eq]
  refine ⟨?_, ?_⟩
  · rintro ⟨m, hreads, hvalue⟩
    obtain ⟨vs, m', rest, hitems, hpairs, hm⟩ := of_reads_map hreads
    obtain rfl := Form.map.inj hm
    obtain ⟨rfl, -⟩ := of_items_evalTail hitems
    -- the second entry is `:payload`
    obtain rfl := Option.some.inj hpairs
    have hsame : some (Form.string (stripped expr)) = some (.string v) := hvalue
    rw [← Form.string.inj (Option.some.inj hsame)]
  · rintro rfl
    exact ⟨_, reads_map (items_evalTail expr) rfl, rfl⟩

/-- Nothing is read from a payload that is cut off. -/
theorem not_reads_cut {expr p : List Byte} (hp : p <+: evalPayload expr)
    (hne : p ≠ evalPayload expr) (v : Form) : ¬ Reads p v := by
  intro h
  obtain ⟨ext, hext⟩ := hp
  have heq : evalPayload expr = 0x7B :: evalTail expr := evalPayload_eq expr
  cases p with
  | nil =>
      obtain ⟨t₁, t₂, hblank, helement, -⟩ := h
      exact nomatch (of_derives_nil helement (of_derives_nil hblank rfl).2).1
  | cons b p =>
      rw [heq, List.cons_append] at hext
      obtain ⟨rfl, htail⟩ := List.cons.inj hext
      obtain ⟨vs, m, rest, hitems, -, -⟩ := of_reads_map h
      -- with the rest of the payload behind it, the map would end too early
      have hall := hitems.append_any (.inr ⟨_, rfl⟩) ext
      rw [htail] at hall
      have hnil := (List.append_eq_nil_iff.mp (of_items_evalTail hall).2).2
      rw [hnil, List.append_nil] at htail
      exact hne (by rw [heq, htail])

end NomosRt.Mcp
