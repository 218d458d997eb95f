/-
  NomosRt.Lib.JsonText

  JSON as it is written.

  A value keeps its layout: the blanks between the tokens, the spelling of a number,
  the items of a string.  `text` writes it out, so that the texts of values are the
  valid JSON texts, and `decode` is the byte string that the items of a string stand
  for.  A string is read back from its text in one way only.
-/

import NomosRt.Lib.CString

namespace NomosRt.Lib.JsonText

/-! ## Blanks -/

/-- What may stand between two tokens. -/
inductive Blank where
  | space
  | tab
  | lineFeed
  | carriageReturn
  deriving DecidableEq, Repr

def Blank.byte : Blank → Byte
  | .space => 0x20
  | .tab => 0x09
  | .lineFeed => 0x0A
  | .carriageReturn => 0x0D

def blanks (w : List Blank) : List Byte := w.map Blank.byte

/-! ## Strings -/

/-- The escapes of one letter. -/
inductive Escape where
  | quote
  | backslash
  | slash
  | backspace
  | formFeed
  | newline
  | carriageReturn
  | tab
  deriving DecidableEq, Repr

/-- The byte behind the backslash. -/
def Escape.letter : Escape → Byte
  | .quote => 0x22
  | .backslash => 0x5C
  | .slash => 0x2F
  | .backspace => 0x62
  | .formFeed => 0x66
  | .newline => 0x6E
  | .carriageReturn => 0x72
  | .tab => 0x74

/-- The byte the escape stands for. -/
def Escape.byte : Escape → Byte
  | .quote => 0x22
  | .backslash => 0x5C
  | .slash => 0x2F
  | .backspace => 0x08
  | .formFeed => 0x0C
  | .newline => 0x0A
  | .carriageReturn => 0x0D
  | .tab => 0x09

/-- A byte that stands for itself: no control character, quote or backslash. -/
def isPlain (b : Byte) : Bool := 0x20 ≤ b && b ≠ 0x22 && b ≠ 0x5C

def isHex (b : Byte) : Bool :=
  (0x30 ≤ b && b ≤ 0x39) || (0x41 ≤ b && b ≤ 0x46) || (0x61 ≤ b && b ≤ 0x66)

def PlainByte : Type := {b : Byte // isPlain b = true}

def HexDigit : Type := {b : Byte // isHex b = true}

def HexDigit.value (d : HexDigit) : Nat :=
  if d.val ≤ 0x39 then d.val.toNat - 0x30
  else if d.val ≤ 0x46 then d.val.toNat - 0x37
  else d.val.toNat - 0x57

/-- A piece of a string. -/
inductive Item where
  | plain (b : PlainByte)
  | escape (e : Escape)
  | unicode (a b c d : HexDigit)

def Item.text : Item → List Byte
  | .plain b => [b.val]
  | .escape e => [0x5C, e.letter]
  | .unicode a b c d => [0x5C, 0x75, a.val, b.val, c.val, d.val]

/-- The text between the quotes. -/
def bodyText (s : List Item) : List Byte := s.flatMap Item.text

/-- A string with its quotes. -/
def literal (s : List Item) : List Byte := 0x22 :: (bodyText s ++ [0x22])

/-- The code unit of `\uXXXX`. -/
def codeUnit (a b c d : HexDigit) : Nat :=
  ((a.value * 16 + b.value) * 16 + c.value) * 16 + d.value

/-- The bytes of a code point.  A surrogate that stands alone gets the three bytes of its
    number. -/
def utf8 (n : Nat) : List Byte :=
  if n < 0x80 then [BitVec.ofNat 8 n]
  else if n < 0x800 then [BitVec.ofNat 8 (0xC0 + n / 64), BitVec.ofNat 8 (0x80 + n % 64)]
  else if n < 0x10000 then
    [BitVec.ofNat 8 (0xE0 + n / 4096), BitVec.ofNat 8 (0x80 + n / 64 % 64),
      BitVec.ofNat 8 (0x80 + n % 64)]
  else
    [BitVec.ofNat 8 (0xF0 + n / 262144), BitVec.ofNat 8 (0x80 + n / 4096 % 64),
      BitVec.ofNat 8 (0x80 + n / 64 % 64), BitVec.ofNat 8 (0x80 + n % 64)]

def isHighSurrogate (n : Nat) : Bool := 0xD800 ≤ n && n < 0xDC00

def isLowSurrogate (n : Nat) : Bool := 0xDC00 ≤ n && n < 0xE000

/-- The code unit an item holds, if it is a `\uXXXX`. -/
def Item.unit? : Item → Option Nat
  | .unicode a b c d => some (codeUnit a b c d)
  | _ => none

/-- The code point of two items that are a surrogate pair. -/
def pair? (x y : Item) : Option Nat :=
  match x.unit?, y.unit? with
  | some hi, some lo =>
      if isHighSurrogate hi && isLowSurrogate lo then
        some (0x10000 + (hi - 0xD800) * 0x400 + (lo - 0xDC00))
      else none
  | _, _ => none

/-- The bytes of one item on its own. -/
def Item.bytes : Item → List Byte
  | .plain b => [b.val]
  | .escape e => [e.byte]
  | .unicode a b c d => utf8 (codeUnit a b c d)

/-- The bytes a string stands for. -/
def decode : List Item → List Byte
  | [] => []
  | [x] => x.bytes
  | x :: y :: s =>
      match pair? x y with
      | some n => utf8 n ++ decode s
      | none => x.bytes ++ decode (y :: s)

/-! ## Numbers -/

def Digit : Type := {b : Byte // 0x30 ≤ b ∧ b ≤ 0x39}

def digits (ds : List Digit) : List Byte := ds.map Subtype.val

/-- An exponent: `e` or `E`, a sign if there is one, and digits. -/
structure Exponent where
  upper : Bool
  sign : Option Bool
  lead : Digit
  rest : List Digit

def Exponent.text (e : Exponent) : List Byte :=
  (if e.upper then 0x45 else 0x65) ::
    ((match e.sign with
      | none => []
      | some false => [0x2D]
      | some true => [0x2B]) ++ digits (e.lead :: e.rest))

/-- A number; no integer part but 0 begins with 0. -/
structure Number where
  negative : Bool
  lead : Digit
  rest : List Digit
  no_leading_zero : lead.val = 0x30 → rest = []
  fraction : Option (Digit × List Digit)
  exponent : Option Exponent

def Number.text (n : Number) : List Byte :=
  (if n.negative then [0x2D] else []) ++ (digits (n.lead :: n.rest) ++
    ((match n.fraction with
      | none => []
      | some (d, ds) => 0x2E :: digits (d :: ds)) ++
      (match n.exponent with
      | none => []
      | some e => e.text)))

/-! ## Values -/

/-- A member of an object, with the blanks before its name, before and behind its colon
    and behind its value. -/
structure Member (V : Type) where
  lead : List Blank
  key : List Item
  mid : List Blank
  gap : List Blank
  value : V
  trail : List Blank

/-- An element of an array. -/
structure Element (V : Type) where
  lead : List Blank
  value : V
  trail : List Blank

/-- A value.  The blanks of an array or an object are those between the brackets when
    there is nothing in it. -/
inductive Value where
  | null
  | bool (b : Bool)
  | number (n : Number)
  | string (s : List Item)
  | array (w : List Blank) (elements : List (Element Value))
  | object (w : List Blank) (members : List (Member Value))

mutual

def Value.text : Value → List Byte
  | .null => ascii "null"
  | .bool b => ascii (if b then "true" else "false")
  | .number n => n.text
  | .string s => literal s
  | .array w elements => 0x5B :: (elementsText w elements ++ [0x5D])
  | .object w members => 0x7B :: (membersText w members ++ [0x7D])

def elementsText (w : List Blank) : List (Element Value) → List Byte
  | [] => blanks w
  | [e] => elementText e
  | e :: e' :: es => elementText e ++ 0x2C :: elementsText w (e' :: es)

def elementText : Element Value → List Byte
  | ⟨lead, value, trail⟩ => blanks lead ++ value.text ++ blanks trail

def membersText (w : List Blank) : List (Member Value) → List Byte
  | [] => blanks w
  | [m] => memberText m
  | m :: m' :: ms => memberText m ++ 0x2C :: membersText w (m' :: ms)

def memberText : Member Value → List Byte
  | ⟨lead, key, mid, gap, value, trail⟩ =>
      blanks lead ++
        (literal key ++ (blanks mid ++ 0x3A :: (blanks gap ++ (value.text ++ blanks trail))))

end

/-- The text of a member from its name on. -/
def Member.fromName (m : Member Value) : List Byte :=
  literal m.key ++ (blanks m.mid ++ 0x3A :: (blanks m.gap ++ (m.value.text ++ blanks m.trail)))

/-! ## Blanks in front of a token -/

/-- Two bytes of which one is of a kind and the other is not. -/
theorem ne_of_kind {p : Byte → Bool} {b c : Byte} (hb : p b = true) (hc : p c = false) :
    b ≠ c := by
  rintro rfl
  rw [hb] at hc
  cases hc

theorem blanks_append (w w' : List Blank) : blanks (w ++ w') = blanks w ++ blanks w' :=
  List.map_append

/-- The bytes of blanks. -/
def isBlankByte (b : Byte) : Bool := b = 0x20 || b = 0x09 || b = 0x0A || b = 0x0D

theorem Blank.isBlankByte_byte (b : Blank) : isBlankByte b.byte = true := by
  cases b <;> rfl

theorem isBlankByte_of_mem {w : List Blank} {b : Byte} (h : b ∈ blanks w) :
    isBlankByte b = true := by
  obtain ⟨x, -, rfl⟩ := List.mem_map.mp h
  exact x.isBlankByte_byte

/-- Blanks and the token behind them come apart in one way. -/
theorem blanks_unique {w w' : List Blank} {c c' : Byte} {t t' : List Byte}
    (hc : isBlankByte c = false) (hc' : isBlankByte c' = false)
    (h : blanks w ++ c :: t = blanks w' ++ c' :: t') : c = c' ∧ t = t' := by
  induction w generalizing w' with
  | nil =>
      cases w' with
      | nil => exact List.cons.inj h
      | cons b w' =>
          rw [show c = b.byte from (List.cons.inj h).1, b.isBlankByte_byte] at hc
          cases hc
  | cons b w ih =>
      cases w' with
      | nil =>
          rw [← show b.byte = c' from (List.cons.inj h).1, b.isBlankByte_byte] at hc'
          cases hc'
      | cons b' w' => exact ih (List.cons.inj h).2

/-- Skipping bytes of one kind from blanks on: all of them and on, or up to the first of
    another kind. -/
theorem dropWhile_blanks (p : Byte → Bool) (w : List Blank) (t : List Byte) :
    ((∀ b ∈ w, p b.byte = true) ∧ (blanks w ++ t).dropWhile p = t.dropWhile p) ∨
      ∃ b w', b ∈ w ∧ p b.byte = false ∧
        (blanks w ++ t).dropWhile p = b.byte :: (blanks w' ++ t) := by
  induction w with
  | nil => exact .inl ⟨fun b hb => absurd hb List.not_mem_nil, rfl⟩
  | cons b w ih =>
      cases hb : p b.byte with
      | false =>
          refine .inr ⟨b, w, List.mem_cons_self, hb, ?_⟩
          exact List.dropWhile_cons_of_neg (by rw [hb]; exact Bool.false_ne_true)
      | true =>
          have hskip : (blanks (b :: w) ++ t).dropWhile p = (blanks w ++ t).dropWhile p :=
            List.dropWhile_cons_of_pos hb
          rw [hskip]
          rcases ih with ⟨hall, heq⟩ | ⟨b', w', hmem, hb', heq⟩
          · refine .inl ⟨fun x hx => ?_, heq⟩
            rcases List.mem_cons.mp hx with rfl | hx
            · exact hb
            · exact hall x hx
          · exact .inr ⟨b', w', List.mem_cons_of_mem _ hmem, hb', heq⟩

/-- The same from the end of a name on, with the colon among the bytes skipped: up to the
    value, or to a blank of another kind behind or in front of the colon. -/
theorem dropWhile_colon {p : Byte → Bool} (hcolon : p 0x3A = true) (mid gap : List Blank)
    (t : List Byte) :
    ((∀ b ∈ mid, p b.byte = true) ∧ (∀ b ∈ gap, p b.byte = true) ∧
        (blanks mid ++ 0x3A :: (blanks gap ++ t)).dropWhile p = t.dropWhile p) ∨
      ((∀ b ∈ mid, p b.byte = true) ∧ ∃ b w, b ∈ gap ∧ p b.byte = false ∧
        (blanks mid ++ 0x3A :: (blanks gap ++ t)).dropWhile p = b.byte :: (blanks w ++ t)) ∨
      ∃ b w, b ∈ mid ∧ p b.byte = false ∧
        (blanks mid ++ 0x3A :: (blanks gap ++ t)).dropWhile p =
          b.byte :: (blanks w ++ 0x3A :: (blanks gap ++ t)) := by
  rcases dropWhile_blanks p mid (0x3A :: (blanks gap ++ t)) with ⟨hmid, hdrop⟩ | hstop
  · rw [hdrop, List.dropWhile_cons_of_pos hcolon]
    rcases dropWhile_blanks p gap t with ⟨hgap, hdrop'⟩ | hstop
    · exact .inl ⟨hmid, hgap, hdrop'⟩
    · exact .inr (.inl ⟨hmid, hstop⟩)
  · exact .inr (.inr hstop)

/-! ## The bytes of a number -/

def isDigitByte (b : Byte) : Bool := 0x30 ≤ b && b ≤ 0x39

/-- Digits, signs, the point and the letter of an exponent. -/
def isNumberByte (b : Byte) : Bool :=
  isDigitByte b || b = 0x2B || b = 0x2D || b = 0x2E || b = 0x45 || b = 0x65

theorem isNumberByte_of_mem_digits {ds : List Digit} {b : Byte} (h : b ∈ digits ds) :
    isNumberByte b = true := by
  obtain ⟨d, -, rfl⟩ := List.mem_map.mp h
  rw [isNumberByte, isDigitByte, decide_eq_true d.property.1, decide_eq_true d.property.2]
  rfl

theorem Exponent.isNumberByte_of_mem {e : Exponent} {b : Byte} (h : b ∈ e.text) :
    isNumberByte b = true := by
  rcases List.mem_cons.mp h with hb | h
  · rw [hb]
    cases e.upper <;> decide
  · rcases List.mem_append.mp h with h | h
    · cases hsign : e.sign with
      | none =>
          rw [hsign] at h
          exact absurd h List.not_mem_nil
      | some plus =>
          rw [hsign] at h
          cases plus
          · rw [List.mem_singleton.mp h]
            decide
          · rw [List.mem_singleton.mp h]
            decide
    · exact isNumberByte_of_mem_digits h

theorem Number.isNumberByte_of_mem {n : Number} {b : Byte} (h : b ∈ n.text) :
    isNumberByte b = true := by
  -- the text is sign, digits, fraction and exponent; the byte is in one of the four
  rcases List.mem_append.mp h with h | h
  · cases hneg : n.negative with
    | false =>
        rw [hneg] at h
        exact absurd h List.not_mem_nil
    | true =>
        rw [hneg] at h
        rw [List.mem_singleton.mp h]
        decide
  · rcases List.mem_append.mp h with h | h
    · exact isNumberByte_of_mem_digits h
    · rcases List.mem_append.mp h with h | h
      · cases hfrac : n.fraction with
        | none =>
            rw [hfrac] at h
            exact absurd h List.not_mem_nil
        | some f =>
            rw [hfrac] at h
            rcases List.mem_cons.mp h with rfl | h
            · decide
            · exact isNumberByte_of_mem_digits h
      · cases hexp : n.exponent with
        | none =>
            rw [hexp] at h
            exact absurd h List.not_mem_nil
        | some e =>
            rw [hexp] at h
            exact Exponent.isNumberByte_of_mem h

theorem Number.text_ne_nil (n : Number) : n.text ≠ [] := by
  intro h
  rw [Number.text, List.append_eq_nil_iff] at h
  exact absurd h.2 (List.cons_ne_nil _ _)

theorem Number.head_text (n : Number) : ∃ c t, n.text = c :: t ∧ isNumberByte c = true := by
  cases htext : n.text with
  | nil => exact absurd htext n.text_ne_nil
  | cons c t =>
      refine ⟨c, t, rfl, n.isNumberByte_of_mem ?_⟩
      rw [htext]
      exact List.mem_cons_self

/-! ## Reading a string back -/

theorem ne_quote_of_isPlain {b : Byte} (h : isPlain b = true) : b ≠ 0x22 := ne_of_kind h rfl

theorem ne_backslash_of_isPlain {b : Byte} (h : isPlain b = true) : b ≠ 0x5C := ne_of_kind h rfl

theorem Escape.letter_injective {e e' : Escape} (h : e.letter = e'.letter) : e = e' := by
  cases e <;> cases e' <;> first | rfl | exact absurd h (by decide)

theorem Escape.letter_ne_u (e : Escape) : e.letter ≠ 0x75 := by
  cases e <;> decide

/-- No item begins with a quote. -/
theorem Item.text_append_ne_quote (x : Item) (s t : List Byte) : x.text ++ s ≠ 0x22 :: t := by
  intro h
  have hhead := congrArg List.head? h
  cases x with
  | plain b => exact ne_quote_of_isPlain b.property (Option.some.inj hhead)
  | escape e => exact absurd (Option.some.inj hhead) (by decide)
  | unicode a b c d => exact absurd (Option.some.inj hhead) (by decide)

/-- The first item of a text is read in one way. -/
theorem Item.text_unique {x y : Item} {s t : List Byte} (h : x.text ++ s = y.text ++ t) :
    x = y ∧ s = t := by
  -- a plain byte is no backslash, and no short escape has the letter `u`
  cases x with
  | plain b =>
      cases y with
      | plain b' =>
          obtain ⟨hb, hs⟩ := List.cons.inj h
          exact ⟨congrArg Item.plain (Subtype.ext hb), hs⟩
      | escape e => exact absurd (List.cons.inj h).1 (ne_backslash_of_isPlain b.property)
      | unicode a b' c d => exact absurd (List.cons.inj h).1 (ne_backslash_of_isPlain b.property)
  | escape e =>
      cases y with
      | plain b => exact absurd (List.cons.inj h).1.symm (ne_backslash_of_isPlain b.property)
      | escape e' =>
          obtain ⟨he, hs⟩ := List.cons.inj (List.cons.inj h).2
          exact ⟨congrArg Item.escape (Escape.letter_injective he), hs⟩
      | unicode a b c d =>
          exact absurd (List.cons.inj (List.cons.inj h).2).1 e.letter_ne_u
  | unicode a b c d =>
      cases y with
      | plain b' => exact absurd (List.cons.inj h).1.symm (ne_backslash_of_isPlain b'.property)
      | escape e => exact absurd (List.cons.inj (List.cons.inj h).2).1.symm e.letter_ne_u
      | unicode a' b' c' d' =>
          obtain ⟨ha, h₁⟩ := List.cons.inj (List.cons.inj (List.cons.inj h).2).2
          obtain ⟨hb, h₂⟩ := List.cons.inj h₁
          obtain ⟨hc, h₃⟩ := List.cons.inj h₂
          obtain ⟨hd, hs⟩ := List.cons.inj h₃
          rw [Subtype.ext ha, Subtype.ext hb, Subtype.ext hc, Subtype.ext hd]
          exact ⟨rfl, hs⟩

theorem bodyText_cons (x : Item) (s : List Item) : bodyText (x :: s) = x.text ++ bodyText s :=
  List.flatMap_cons

theorem bodyText_append (s s' : List Item) : bodyText (s ++ s') = bodyText s ++ bodyText s' :=
  List.flatMap_append

theorem literal_append (s : List Item) (t : List Byte) :
    literal s ++ t = 0x22 :: (bodyText s ++ 0x22 :: t) := by
  rw [literal, List.cons_append, List.append_assoc, List.singleton_append]

/-- A string behind its opening quote is read in one way: its items and the rest behind
    the closing quote. -/
theorem bodyText_unique {xs ys : List Item} {s t : List Byte}
    (h : bodyText xs ++ 0x22 :: s = bodyText ys ++ 0x22 :: t) : xs = ys ∧ s = t := by
  induction xs generalizing ys with
  | nil =>
      cases ys with
      | nil => exact ⟨rfl, (List.cons.inj h).2⟩
      | cons y ys =>
          rw [bodyText_cons, List.append_assoc] at h
          exact absurd h.symm (y.text_append_ne_quote _ _)
  | cons x xs ih =>
      cases ys with
      | nil =>
          rw [bodyText_cons, List.append_assoc] at h
          exact absurd h (x.text_append_ne_quote _ _)
      | cons y ys =>
          rw [bodyText_cons, bodyText_cons, List.append_assoc, List.append_assoc] at h
          obtain ⟨rfl, hrest⟩ := Item.text_unique h
          obtain ⟨rfl, hst⟩ := ih hrest
          exact ⟨rfl, hst⟩

/-! ## What a string stands for -/

theorem length_utf8_le_four (n : Nat) : (utf8 n).length ≤ 4 := by
  unfold utf8
  split_ifs <;> simp

theorem HexDigit.value_lt (d : HexDigit) : d.value < 16 := by
  obtain ⟨b, hb⟩ := d
  revert b
  decide

theorem codeUnit_lt (a b c d : HexDigit) : codeUnit a b c d < 0x10000 := by
  have ha := a.value_lt
  have hb := b.value_lt
  have hc := c.value_lt
  have hd := d.value_lt
  unfold codeUnit
  omega

theorem length_utf8_le_three {n : Nat} (h : n < 0x10000) : (utf8 n).length ≤ 3 := by
  unfold utf8
  split_ifs <;> simp

/-- Only `\uXXXX` items pair up. -/
theorem unit_of_pair {x y : Item} {n : Nat} (h : pair? x y = some n) :
    (∃ a b c d, x = .unicode a b c d) ∧ ∃ a b c d, y = .unicode a b c d := by
  cases x <;> cases y <;> first | exact ⟨⟨_, _, _, _, rfl⟩, _, _, _, _, rfl⟩ | exact absurd h (by simp [pair?, Item.unit?])

/-- The byte of an escape is in the string. -/
theorem byte_mem_decode {e : Escape} {s : List Item} (h : Item.escape e ∈ s) :
    e.byte ∈ decode s := by
  fun_induction decode s with
  | case1 => exact absurd h (List.not_mem_nil)
  | case2 x =>
      rw [← List.mem_singleton.mp h]
      exact List.mem_singleton_self _
  | case3 x y s n hpair ih =>
      obtain ⟨⟨a, b, c, d, rfl⟩, a', b', c', d', rfl⟩ := unit_of_pair hpair
      have hs : Item.escape e ∈ s := by simpa using h
      exact List.mem_append_right _ (ih hs)
  | case4 x y s hpair ih =>
      rcases List.mem_cons.mp h with rfl | hs
      · exact List.mem_append_left _ (List.mem_singleton_self _)
      · exact List.mem_append_right _ (ih hs)

/-- Without `\uXXXX` every item stands for itself. -/
theorem decode_append {s t : List Item} (h : ∀ x ∈ s, x.unit? = none) :
    decode (s ++ t) = s.flatMap Item.bytes ++ decode t := by
  induction s with
  | nil => rfl
  | cons x s ih =>
      have hx : x.unit? = none := h x List.mem_cons_self
      have hs := ih fun y hy => h y (List.mem_cons_of_mem _ hy)
      rw [List.flatMap_cons, List.append_assoc, ← hs, List.cons_append]
      cases s ++ t with
      | nil => exact (List.append_nil _).symm
      | cons y r =>
          have hpair : pair? x y = none := by
            rw [pair?, hx]
          rw [decode, hpair]

theorem decode_eq_flatMap {s : List Item} (h : ∀ x ∈ s, x.unit? = none) :
    decode s = s.flatMap Item.bytes := by
  have happ := decode_append (t := []) h
  rwa [List.append_nil, decode, List.append_nil] at happ

end NomosRt.Lib.JsonText
