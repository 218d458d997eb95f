/-
  NomosRt.Lib.EdnText

  The textual form of EDN, as a grammar over bytes.

  A derivation goes from a text to the rest that is left after what was read; the
  three things that can be read are what may stand between elements, one element, and
  the elements up to a closing bracket.  They share one relation, so that a fact about
  all of them is one induction.

  An atom is kept as its text.  A comment ends with its line.
-/

import NomosRt.Lib.CString

namespace NomosRt.Lib.EdnText

/-- A text is a sequence of bytes. -/
abbrev Text := List Byte

/-! ## Bytes -/

def quote : Byte := 0x22

def backslash : Byte := 0x5C

def newline : Byte := 0x0A

/-- White space; a comma is white space. -/
def isSpace (b : Byte) : Bool := b ∈ ([0x09, 0x0A, 0x0B, 0x0C, 0x0D, 0x20, 0x2C] : List Byte)

/-- White space, brackets, the string quote and the start of a comment. -/
def isDelimiter (b : Byte) : Bool := isSpace b || b ∈ ascii "()[]\x7b\x7d\";"

/-- A token ends with the text or before a delimiter. -/
def TokenEnd : Text → Prop
  | [] => True
  | b :: _ => isDelimiter b = true

/-! ## Atoms -/

def isDigit (b : Byte) : Bool := 0x30 ≤ b && b ≤ 0x39

/-- A letter; the bytes of a character outside of ASCII count as letters. -/
def isAlpha (b : Byte) : Bool := (0x41 ≤ b && b ≤ 0x5A) || (0x61 ≤ b && b ≤ 0x7A) || 0x80 ≤ b

/-- The bytes a symbol may begin with. -/
def isSymbolStart (b : Byte) : Bool := isAlpha b || b ∈ ascii ".*+!-_?$%&=<>"

/-- The bytes that may follow. -/
def isSymbolByte (b : Byte) : Bool := isSymbolStart b || isDigit b || b ∈ ascii ":#"

/-- A symbol without its namespace.  Behind `-`, `+` and `.` no digit follows. -/
def isSymbolName : Text → Bool
  | [] => false
  | b :: t => isSymbolStart b && t.all isSymbolByte &&
      (b ∉ ascii "-+." || (t.head?.map isDigit) ≠ some true)

def isSymbol (t : Text) : Bool :=
  t = ascii "/" ||
  match t.splitOn 0x2F with
  | [name] => isSymbolName name
  | [ns, name] => isSymbolName ns && isSymbolName name
  | _ => false

/-- A keyword; it does not begin with two colons. -/
def isKeyword : Text → Bool
  | 0x3A :: t => t.head? ≠ some 0x3A && (t.splitOn 0x2F).length ≤ 2 &&
      (t.splitOn 0x2F).all fun part => part ≠ [] && part.all isSymbolByte
  | _ => false

/-- The text without its sign. -/
def unsigned : Text → Text
  | 0x2B :: t => t
  | 0x2D :: t => t
  | t => t

/-- No number but 0 begins with 0. -/
def isDigits : Text → Bool
  | [] => false
  | [b] => isDigit b
  | b :: t => isDigit b && b ≠ 0x30 && t.all isDigit

def isInteger (t : Text) : Bool :=
  isDigits (unsigned t) ||
  ((unsigned t).getLast? = some 0x4E && isDigits (unsigned t).dropLast)

/-- An exponent, or nothing. -/
def isExponent : Text → Bool
  | [] => true
  | b :: t => b ∈ ascii "eE" && unsigned t ≠ [] && (unsigned t).all isDigit

/-- A fraction and an exponent, either of which may be missing. -/
def isFraction : Text → Bool
  | 0x2E :: t => (t.head?.map isDigit) = some true && isExponent (t.dropWhile isDigit)
  | t => isExponent t

def isFloat (t : Text) : Bool :=
  let t := unsigned t
  let t := if t.getLast? = some 0x4D then t.dropLast else t
  isDigits (t.takeWhile isDigit) && isFraction (t.dropWhile isDigit)

/-- `nil`, booleans, symbols, keywords and numbers. -/
def isAtom (t : Text) : Bool :=
  t.all (fun b => !isDelimiter b) && (isSymbol t || isKeyword t || isInteger t || isFloat t)

/-- What stands behind the backslash of a character. -/
def isCharName (t : Text) : Bool :=
  t.length = 1 || t ∈ ["newline", "return", "space", "tab"].map ascii ||
  (t.length = 5 && t.head? = some 0x75 &&
    t.tail.all fun b => isDigit b || (0x41 ≤ b && b ≤ 0x46) || (0x61 ≤ b && b ≤ 0x66)) ||
  (2 ≤ t.length && t.length ≤ 4 && t.all (0x80 ≤ ·))

/-! ## Strings -/

/-- The escapes of a string. -/
def unescape (b : Byte) : Option Byte :=
  if b = 0x74 then some 0x09
  else if b = 0x72 then some 0x0D
  else if b = 0x6E then some 0x0A
  else if b = backslash then some backslash
  else if b = quote then some quote
  else none

/-- A string behind its opening quote: the text, the value and the rest behind the
    closing quote. -/
inductive StringBody : Text → Text → Text → Prop where
  | close {rest : Text} : StringBody (quote :: rest) [] rest
  | plain {b : Byte} {t s rest : Text} (hq : b ≠ quote) (hb : b ≠ backslash)
      (h : StringBody t s rest) : StringBody (b :: t) (b :: s) rest
  | escape {b c : Byte} {t s rest : Text} (hc : unescape b = some c)
      (h : StringBody t s rest) : StringBody (backslash :: b :: t) (c :: s) rest

/-! ## Elements -/

/-- A value as it is read. -/
inductive Form where
  | atom (t : Text)
  | char (t : Text)
  | string (s : Text)
  | list (items : List Form)
  | vector (items : List Form)
  | set (items : List Form)
  | map (entries : List (Form × Form))
  | tagged (tag : Text) (val : Form)

/-- Keys and values in turn. -/
def pairs : List Form → Option (List (Form × Form))
  | [] => some []
  | [_] => none
  | k :: v :: rest => (pairs rest).map ((k, v) :: ·)

/-- What is read. -/
inductive Nonterminal where
  | blank
  | element
  | items (close : Byte)

/-- `Derives nt t vs rest`: reading `nt` from `t` yields `vs` and leaves `rest`. -/
inductive Derives : Nonterminal → Text → List Form → Text → Prop where
  | nothing {t : Text} : Derives .blank t [] t
  | space {b : Byte} {t rest : Text} (hb : isSpace b = true) (h : Derives .blank t [] rest) :
      Derives .blank (b :: t) [] rest
  | comment {body t rest : Text} (hbody : newline ∉ body) (h : Derives .blank t [] rest) :
      Derives .blank (0x3B :: (body ++ newline :: t)) [] rest
  | discard {t t₁ t₂ rest : Text} {v : Form} (h₁ : Derives .blank t [] t₁)
      (h₂ : Derives .element t₁ [v] t₂) (h₃ : Derives .blank t₂ [] rest) :
      Derives .blank (0x23 :: 0x5F :: t) [] rest
  | atom {tok rest : Text} (htok : isAtom tok = true) (hend : TokenEnd rest) :
      Derives .element (tok ++ rest) [.atom tok] rest
  | char {c : Byte} {more rest : Text} (hc : isSpace c = false)
      (hmore : ∀ b ∈ more, isDelimiter b = false) (hname : isCharName (c :: more) = true)
      (hend : TokenEnd rest) :
      Derives .element (backslash :: c :: (more ++ rest)) [.char (c :: more)] rest
  | string {t s rest : Text} (h : StringBody t s rest) :
      Derives .element (quote :: t) [.string s] rest
  | list {t rest : Text} {vs : List Form} (h : Derives (.items 0x29) t vs rest) :
      Derives .element (0x28 :: t) [.list vs] rest
  | vector {t rest : Text} {vs : List Form} (h : Derives (.items 0x5D) t vs rest) :
      Derives .element (0x5B :: t) [.vector vs] rest
  | set {t rest : Text} {vs : List Form} (h : Derives (.items 0x7D) t vs rest) :
      Derives .element (0x23 :: 0x7B :: t) [.set vs] rest
  | map {t rest : Text} {vs : List Form} {m : List (Form × Form)}
      (h : Derives (.items 0x7D) t vs rest) (hm : pairs vs = some m) :
      Derives .element (0x7B :: t) [.map m] rest
  | tagged {tag t t₁ rest : Text} {v : Form} (htag : isSymbol tag = true)
      (halpha : (tag.head?.map isAlpha) = some true) (hend : TokenEnd t)
      (h₁ : Derives .blank t [] t₁) (h₂ : Derives .element t₁ [v] rest) :
      Derives .element (0x23 :: (tag ++ t)) [.tagged tag v] rest
  | close {c : Byte} {t rest : Text} (h : Derives .blank t [] (c :: rest)) :
      Derives (.items c) t [] rest
  | item {c : Byte} {t t₁ t₂ rest : Text} {v : Form} {vs : List Form}
      (h₁ : Derives .blank t [] t₁) (h₂ : Derives .element t₁ [v] t₂)
      (h₃ : Derives (.items c) t₂ vs rest) : Derives (.items c) t (v :: vs) rest

/-- The text is one element, with nothing but blanks around it. -/
def Reads (t : Text) (v : Form) : Prop :=
  ∃ t₁ t₂, Derives .blank t [] t₁ ∧ Derives .element t₁ [v] t₂ ∧ Derives .blank t₂ [] []

/-- The text is well-formed. -/
def WellFormed (t : Text) : Prop := ∃ v, Reads t v

/-- The value under an atom of a map. -/
def valueOf (key : Text) : List (Form × Form) → Option Form
  | [] => none
  | (.atom k, v) :: m => if k = key then some v else valueOf key m
  | _ :: m => valueOf key m

/-! ## More text behind -/

theorem TokenEnd.append {rest ext : Text} (h : TokenEnd rest) (hext : TokenEnd ext) :
    TokenEnd (rest ++ ext) := by
  cases rest with
  | nil => exact hext
  | cons b rest => exact h

theorem StringBody.append {t s rest : Text} (h : StringBody t s rest) (ext : Text) :
    StringBody (t ++ ext) s (rest ++ ext) := by
  induction h with
  | close => exact .close
  | plain hq hb _ ih => exact .plain hq hb ih
  | escape hc _ ih => exact .escape hc ih

/-- What was read is read again when something that ends a token follows. -/
theorem Derives.append {nt : Nonterminal} {t rest : Text} {vs : List Form}
    (h : Derives nt t vs rest) {ext : Text} (hext : TokenEnd ext) :
    Derives nt (t ++ ext) vs (rest ++ ext) := by
  -- induction on the derivation: only a token at the very end can see `ext`, and `hext` ends it
  induction h with
  | nothing => exact .nothing
  | space hb _ ih => exact .space hb ih
  | comment hbody _ ih =>
      rw [List.cons_append, List.append_assoc, List.cons_append]
      exact .comment hbody ih
  | discard _ _ _ ih₁ ih₂ ih₃ => exact .discard ih₁ ih₂ ih₃
  | atom htok hend =>
      rw [List.append_assoc]
      exact .atom htok (hend.append hext)
  | char hc hmore hname hend =>
      rw [List.cons_append, List.cons_append, List.append_assoc]
      exact .char hc hmore hname (hend.append hext)
  | string h => exact .string (h.append ext)
  | list _ ih => exact .list ih
  | vector _ ih => exact .vector ih
  | set _ ih => exact .set ih
  | map _ hm ih => exact .map ih hm
  | tagged htag halpha hend _ _ ih₁ ih₂ =>
      rw [List.cons_append, List.append_assoc]
      exact .tagged htag halpha (hend.append hext) ih₁ ih₂
  | close _ ih => exact .close ih
  | item _ _ _ ih₁ ih₂ ih₃ => exact .item ih₁ ih₂ ih₃

/-! ## What a first byte decides -/

theorem isAtom_ne_nil {tok : Text} (h : isAtom tok = true) : tok ≠ [] := by
  rintro rfl
  exact absurd h (by decide)

theorem isDelimiter_of_isAtom {tok : Text} (h : isAtom tok = true) {b : Byte} (hb : b ∈ tok) :
    isDelimiter b = false := by
  rw [isAtom, Bool.and_eq_true, List.all_eq_true] at h
  exact Bool.not_eq_true' _ |>.mp (h.1 b hb)

/-- Nothing is skipped before an element that starts at once. -/
theorem blank_of_ne {b : Byte} {t rest : Text} {vs : List Form}
    (h : Derives .blank (b :: t) vs rest) (hspace : isSpace b = false) (hcomment : b ≠ 0x3B)
    (hhash : b ≠ 0x23) : rest = b :: t := by
  cases h with
  | nothing => rfl
  | space hb _ =>
      rw [hspace] at hb
      cases hb
  | comment _ _ => exact absurd rfl hcomment
  | discard _ _ _ => exact absurd rfl hhash

/-- Only blanks are read from the empty text. -/
theorem of_derives_nil {nt : Nonterminal} {t rest : Text} {vs : List Form}
    (h : Derives nt t vs rest) (ht : t = []) : nt = .blank ∧ rest = [] := by
  induction h with
  | nothing => exact ⟨rfl, ht⟩
  | atom htok _ => exact absurd (List.append_eq_nil_iff.mp ht).1 (isAtom_ne_nil htok)
  | close _ ih => exact absurd (ih ht).2 (List.cons_ne_nil _ _)
  | item _ _ _ ih₁ ih₂ _ => exact absurd (ih₂ (ih₁ ht).2).1 nofun
  | _ => cases ht

theorem TokenEnd.append_of_ne {rest : Text} (h : TokenEnd rest) (hne : rest ≠ []) (ext : Text) :
    TokenEnd (rest ++ ext) := by
  cases rest with
  | nil => exact absurd rfl hne
  | cons b rest => exact h

/-- What was read up to a closing bracket, or up to a rest that is not empty, is read again
    whatever follows. -/
theorem Derives.append_any {nt : Nonterminal} {t rest : Text} {vs : List Form}
    (h : Derives nt t vs rest) (hrest : rest ≠ [] ∨ ∃ c, nt = .items c) (ext : Text) :
    Derives nt (t ++ ext) vs (rest ++ ext) := by
  have helement {t rest : Text} {vs : List Form} (h : Derives .element t vs rest) : t ≠ [] :=
    fun ht => nomatch (of_derives_nil h ht).1
  have hitems {c : Byte} {t rest : Text} {vs : List Form} (h : Derives (.items c) t vs rest) :
      t ≠ [] := fun ht => nomatch (of_derives_nil h ht).1
  have hblank {t rest : Text} {vs : List Form} (h : Derives .blank t vs rest) (hne : rest ≠ []) :
      t ≠ [] := fun ht => hne (of_derives_nil h ht).2
  -- every part but the last leaves the text of the next one, which is not empty
  induction h with
  | nothing => exact .nothing
  | space hb _ ih => exact .space hb (ih (hrest.imp_right nofun))
  | comment hbody _ ih =>
      rw [List.cons_append, List.append_assoc, List.cons_append]
      exact .comment hbody (ih (hrest.imp_right nofun))
  | discard _ h₂ h₃ ih₁ ih₂ ih₃ =>
      have hne := hrest.resolve_right nofun
      exact .discard (ih₁ (.inl (helement h₂))) (ih₂ (.inl (hblank h₃ hne))) (ih₃ (.inl hne))
  | atom htok hend =>
      rw [List.append_assoc]
      exact .atom htok (hend.append_of_ne (hrest.resolve_right nofun) ext)
  | char hc hmore hname hend =>
      rw [List.cons_append, List.cons_append, List.append_assoc]
      exact .char hc hmore hname (hend.append_of_ne (hrest.resolve_right nofun) ext)
  | string h => exact .string (h.append ext)
  | list _ ih => exact .list (ih (.inr ⟨_, rfl⟩))
  | vector _ ih => exact .vector (ih (.inr ⟨_, rfl⟩))
  | set _ ih => exact .set (ih (.inr ⟨_, rfl⟩))
  | map _ hm ih => exact .map (ih (.inr ⟨_, rfl⟩)) hm
  | tagged htag halpha hend h₁ h₂ ih₁ ih₂ =>
      have hne := hrest.resolve_right nofun
      have hne₁ := helement h₂
      rw [List.cons_append, List.append_assoc]
      exact .tagged htag halpha (hend.append_of_ne (hblank h₁ hne₁) ext) (ih₁ (.inl hne₁))
        (ih₂ (.inl hne))
  | close _ ih => exact .close (ih (.inl (List.cons_ne_nil _ _)))
  | item _ h₂ h₃ ih₁ ih₂ ih₃ =>
      exact .item (ih₁ (.inl (helement h₂))) (ih₂ (.inl (hitems h₃))) (ih₃ (.inr ⟨_, rfl⟩))

/-- An atom is as long as there is no delimiter. -/
theorem atom_unique {tok tok' rest rest' : Text} (heq : tok ++ rest = tok' ++ rest')
    (htok : ∀ b ∈ tok, isDelimiter b = false) (hend : TokenEnd rest)
    (htok' : ∀ b ∈ tok', isDelimiter b = false) (hend' : TokenEnd rest') :
    tok = tok' ∧ rest = rest' := by
  induction tok generalizing tok' with
  | nil =>
      cases tok' with
      | nil => exact ⟨rfl, heq⟩
      | cons b tok' =>
          -- `rest` would begin with a byte of the other atom
          rw [List.nil_append, List.cons_append] at heq
          rw [heq] at hend
          have hb := htok' b List.mem_cons_self
          rw [show isDelimiter b = true from hend] at hb
          cases hb
  | cons a tok ih =>
      cases tok' with
      | nil =>
          rw [List.nil_append, List.cons_append] at heq
          rw [← heq] at hend'
          have ha := htok a List.mem_cons_self
          rw [show isDelimiter a = true from hend'] at ha
          cases ha
      | cons b tok' =>
          rw [List.cons_append, List.cons_append, List.cons.injEq] at heq
          obtain ⟨rfl, heq⟩ := heq
          rw [List.forall_mem_cons] at htok htok'
          obtain ⟨rfl, hrest⟩ := ih heq htok.2 htok'.2
          exact ⟨rfl, hrest⟩

/-- The bytes of an atom, with a first byte that begins nothing else. -/
def isWord (t : Text) : Bool :=
  t.all (fun b => !isDelimiter b) && t.head?.any fun b => b ≠ 0x23 && b ≠ backslash

theorem isWord_cons {tok : Text} (h : isWord tok = true) :
    (∀ b ∈ tok, isDelimiter b = false) ∧ ∃ b tok', tok = b :: tok' ∧ b ≠ 0x23 ∧ b ≠ backslash := by
  rw [isWord, Bool.and_eq_true, List.all_eq_true] at h
  refine ⟨fun b hb => (Bool.not_eq_true' _).mp (h.1 b hb), ?_⟩
  cases tok with
  | nil => cases h.2
  | cons b tok =>
      have hb : (decide (b ≠ 0x23) && decide (b ≠ backslash)) = true := h.2
      rw [Bool.and_eq_true, decide_eq_true_iff, decide_eq_true_iff] at hb
      exact ⟨b, tok, rfl, hb⟩

/-- An element that begins with the bytes of an atom is that atom. -/
theorem element_atom {tok t rest : Text} {vs : List Form} (h : Derives .element (tok ++ t) vs rest)
    (htok : isWord tok = true) (hend : TokenEnd t) : vs = [.atom tok] ∧ rest = t := by
  obtain ⟨hfree, b, tok', rfl, hhash, hback⟩ := isWord_cons htok
  have hb : isDelimiter b = false := hfree b List.mem_cons_self
  generalize htext : b :: tok' ++ t = text at h
  cases h with
  | atom htok' hend' =>
      obtain ⟨rfl, rfl⟩ := atom_unique htext hfree hend (fun _ => isDelimiter_of_isAtom htok') hend'
      exact ⟨rfl, rfl⟩
  | char _ _ _ _ => exact absurd (List.cons.inj htext).1 hback
  | set _ => exact absurd (List.cons.inj htext).1 hhash
  | tagged _ _ _ _ _ => exact absurd (List.cons.inj htext).1 hhash
  -- the other kinds begin with a delimiter
  | _ =>
      rw [(List.cons.inj htext).1] at hb
      exact absurd hb (by decide)

/-- An element that begins with a delimiter is no atom. -/
theorem atom_ne_delimiter {tok rest t : Text} {b : Byte} (htok : isAtom tok = true)
    (hb : isDelimiter b = true) : tok ++ rest ≠ b :: t := by
  intro heq
  cases tok with
  | nil => exact isAtom_ne_nil htok rfl
  | cons a tok =>
      have ha := isDelimiter_of_isAtom htok List.mem_cons_self
      rw [(List.cons.inj heq).1, hb] at ha
      cases ha

theorem element_quote {t rest : Text} {vs : List Form} (h : Derives .element (quote :: t) vs rest) :
    ∃ s, StringBody t s rest ∧ vs = [.string s] := by
  generalize htext : quote :: t = text at h
  cases h with
  | string h =>
      obtain rfl := (List.cons.inj htext).2
      exact ⟨_, h, rfl⟩
  | atom htok _ => exact absurd htext.symm (atom_ne_delimiter htok (by decide))
  -- the other kinds begin with another byte
  | _ => exact absurd (List.cons.inj htext).1 (by decide)

theorem element_map {t rest : Text} {vs : List Form} (h : Derives .element (0x7B :: t) vs rest) :
    ∃ ws m, Derives (.items 0x7D) t ws rest ∧ pairs ws = some m ∧ vs = [.map m] := by
  generalize htext : (0x7B : Byte) :: t = text at h
  cases h with
  | map h hm =>
      obtain rfl := (List.cons.inj htext).2
      exact ⟨_, _, h, hm, rfl⟩
  | atom htok _ => exact absurd htext.symm (atom_ne_delimiter htok (by decide))
  | _ => exact absurd (List.cons.inj htext).1 (by decide)

theorem not_element_space {b : Byte} {t rest : Text} {vs : List Form} (hb : isSpace b = true) :
    ¬ Derives .element (b :: t) vs rest := by
  intro h
  generalize htext : b :: t = text at h
  cases h with
  | atom htok _ =>
      have hdelim : isDelimiter b = true := by rw [isDelimiter, hb, Bool.true_or]
      exact atom_ne_delimiter htok hdelim htext.symm
  | _ =>
      rw [(List.cons.inj htext).1] at hb
      exact absurd hb (by decide)

/-! ## Items one by one -/

section Items

variable {c b : Byte} {tok t rest : Text} {vs : List Form}

theorem tokenEnd_space (t : Text) : TokenEnd (0x20 :: t) := by
  show isDelimiter 0x20 = true
  decide

theorem items_atom (htok : isAtom tok = true) (hend : TokenEnd t)
    (h : Derives (.items c) t vs rest) : Derives (.items c) (tok ++ t) (.atom tok :: vs) rest :=
  .item .nothing (.atom htok hend) h

theorem items_string {s t₂ : Text} (hs : StringBody t s t₂) (h : Derives (.items c) t₂ vs rest) :
    Derives (.items c) (quote :: t) (.string s :: vs) rest :=
  .item .nothing (.string hs) h

theorem items_space (hb : isSpace b = true) (h : Derives (.items c) t vs rest) :
    Derives (.items c) (b :: t) vs rest := by
  cases h with
  | close h => exact .close (.space hb h)
  | item h₁ h₂ h₃ => exact .item (.space hb h₁) h₂ h₃

/-- An atom and the blank behind it. -/
theorem items_word (htok : isAtom tok = true) (h : Derives (.items c) t vs rest) :
    Derives (.items c) (tok ++ 0x20 :: t) (.atom tok :: vs) rest :=
  items_atom htok (tokenEnd_space t) (items_space (by decide) h)

/-- A closing bracket. -/
def isClosing (c : Byte) : Bool := c ∈ ([0x29, 0x5D, 0x7D] : List Byte)

theorem isClosing_cases (hc : isClosing c = true) :
    isDelimiter c = true ∧ isSpace c = false ∧ c ≠ quote := by
  have hmem := of_decide_eq_true hc
  simp only [List.mem_cons, List.not_mem_nil, or_false] at hmem
  rcases hmem with rfl | rfl | rfl <;> decide

variable (hc : isClosing c = true)

include hc

/-- No item begins with the closing bracket. -/
theorem of_items_close (h : Derives (.items c) (c :: t) vs rest) : vs = [] ∧ rest = t := by
  have hne : c ≠ 0x3B ∧ c ≠ 0x23 := by
    have hmem := of_decide_eq_true hc
    simp only [List.mem_cons, List.not_mem_nil, or_false] at hmem
    rcases hmem with rfl | rfl | rfl <;> decide
  have hdelim := (isClosing_cases hc).1
  have hspace := (isClosing_cases hc).2.1
  cases h with
  | close h₁ => exact ⟨rfl, (List.cons.inj (blank_of_ne h₁ hspace hne.1 hne.2)).2⟩
  | item h₁ h₂ h₃ =>
      obtain rfl := blank_of_ne h₁ hspace hne.1 hne.2
      generalize htext : c :: t = text at h₂
      cases h₂ with
      | atom htok _ => exact absurd htext.symm (atom_ne_delimiter htok hdelim)
      | _ =>
          rw [(List.cons.inj htext).1] at hc
          exact absurd hc (by decide)

theorem of_items_space (h : Derives (.items c) (b :: t) vs rest) (hb : isSpace b = true) :
    Derives (.items c) t vs rest := by
  -- the blank was skipped, since neither an element nor the bracket starts with it
  have hskip {t₁ : Text} (h₁ : Derives .blank (b :: t) [] t₁) :
      t₁ = b :: t ∨ Derives .blank t [] t₁ := by
    cases h₁ with
    | nothing => exact .inl rfl
    | space _ h => exact .inr h
    | _ => exact absurd hb (by decide)
  cases h with
  | close h₁ =>
      rcases hskip h₁ with heq | h₁
      · have hspace := (isClosing_cases hc).2.1
        rw [(List.cons.inj heq).1, hb] at hspace
        cases hspace
      · exact .close h₁
  | item h₁ h₂ h₃ =>
      rcases hskip h₁ with rfl | h₁
      · exact absurd h₂ (not_element_space hb)
      · exact .item h₁ h₂ h₃

/-- An atom and the blank behind it are the first item. -/
theorem of_items_word (h : Derives (.items c) (tok ++ 0x20 :: t) vs rest)
    (htok : isWord tok = true) :
    ∃ vs', vs = .atom tok :: vs' ∧ Derives (.items c) t vs' rest := by
  obtain ⟨hfree, b, tok', rfl, hhash, hback⟩ := isWord_cons htok
  have hb : isDelimiter b = false := hfree b List.mem_cons_self
  have hspace : isSpace b = false := by
    rw [isDelimiter, Bool.or_eq_false_iff] at hb
    exact hb.1
  have hne {d : Byte} (hd : isDelimiter d = true) : b ≠ d := by
    rintro rfl
    rw [hd] at hb
    cases hb
  cases h with
  | close h₁ =>
      -- the bracket is a delimiter, the first byte of the atom is not
      have heq := blank_of_ne h₁ hspace (hne (by decide)) hhash
      exact absurd (List.cons.inj heq).1.symm (hne (isClosing_cases hc).1)
  | item h₁ h₂ h₃ =>
      obtain rfl := blank_of_ne h₁ hspace (hne (by decide)) hhash
      obtain ⟨hv, rfl⟩ := element_atom h₂ htok (tokenEnd_space t)
      obtain rfl := List.singleton_inj.mp hv
      exact ⟨_, rfl, of_items_space hc h₃ (by decide)⟩

theorem of_items_string (h : Derives (.items c) (quote :: t) vs rest) :
    ∃ s vs' t₂, StringBody t s t₂ ∧ vs = .string s :: vs' ∧ Derives (.items c) t₂ vs' rest := by
  cases h with
  | close h₁ =>
      have heq := blank_of_ne h₁ (by decide) (by decide) (by decide)
      exact absurd (List.cons.inj heq).1 (isClosing_cases hc).2.2
  | item h₁ h₂ h₃ =>
      obtain rfl := blank_of_ne h₁ (by decide) (by decide) (by decide)
      obtain ⟨s, hs, hv⟩ := element_quote h₂
      obtain rfl := List.singleton_inj.mp hv
      exact ⟨s, _, _, hs, rfl, h₃⟩

end Items

/-- A map that begins at once. -/
theorem of_reads_map {t : Text} {v : Form} (h : Reads (0x7B :: t) v) :
    ∃ vs m rest, Derives (.items 0x7D) t vs rest ∧ pairs vs = some m ∧ v = .map m := by
  obtain ⟨t₁, t₂, h₁, h₂, -⟩ := h
  obtain rfl := blank_of_ne h₁ (by decide) (by decide) (by decide)
  obtain ⟨vs, m, hitems, hm, hv⟩ := element_map h₂
  exact ⟨vs, m, t₂, hitems, hm, List.singleton_inj.mp hv⟩

theorem reads_map {t : Text} {vs : List Form} {m : List (Form × Form)}
    (h : Derives (.items 0x7D) t vs []) (hm : pairs vs = some m) : Reads (0x7B :: t) (.map m) :=
  ⟨_, _, .nothing, .map h hm, .nothing⟩

/-! ## Quoting -/

section Quoting

variable {b : Byte} {t v rest : Text}

theorem of_stringBody_close (h : StringBody (quote :: t) v rest) : v = [] ∧ rest = t := by
  cases h with
  | close => exact ⟨rfl, rfl⟩
  | plain hq _ _ => exact absurd rfl hq

theorem of_stringBody_plain (h : StringBody (b :: t) v rest) (hq : b ≠ quote)
    (hb : b ≠ backslash) : ∃ s, v = b :: s ∧ StringBody t s rest := by
  cases h with
  | close => exact absurd rfl hq
  | plain _ _ h => exact ⟨_, rfl, h⟩
  | escape _ _ => exact absurd rfl hb

theorem of_stringBody_backslash (h : StringBody (backslash :: b :: t) v rest) :
    ∃ c s, unescape b = some c ∧ v = c :: s ∧ StringBody t s rest := by
  cases h with
  | plain _ hb _ => exact absurd rfl hb
  | escape hc h => exact ⟨_, _, hc, rfl, h⟩

/-- A string is read in one way. -/
theorem StringBody.unique {v' rest' : Text} (h : StringBody t v rest) (h' : StringBody t v' rest') :
    v = v' ∧ rest = rest' := by
  induction h generalizing v' with
  | close =>
      obtain ⟨rfl, rfl⟩ := of_stringBody_close h'
      exact ⟨rfl, rfl⟩
  | plain hq hb _ ih =>
      obtain ⟨s, rfl, hs⟩ := of_stringBody_plain h' hq hb
      obtain ⟨rfl, hrest⟩ := ih hs
      exact ⟨rfl, hrest⟩
  | escape hc _ ih =>
      obtain ⟨c', s, hc', rfl, hs⟩ := of_stringBody_backslash h'
      obtain rfl := Option.some.inj (hc.symm.trans hc')
      obtain ⟨rfl, hrest⟩ := ih hs
      exact ⟨rfl, hrest⟩

end Quoting

/-- A backslash before every quote and backslash. -/
def escape : Text → Text
  | [] => []
  | b :: t => if b = quote ∨ b = backslash then backslash :: b :: escape t else b :: escape t

theorem unescape_self {b : Byte} (hb : b = quote ∨ b = backslash) : unescape b = some b := by
  rcases hb with rfl | rfl <;> decide

/-- An escaped text is read back, with whatever string follows it. -/
theorem stringBody_escape {s t s' rest : Text} (h : StringBody t s' rest) :
    StringBody (escape s ++ t) (s ++ s') rest := by
  induction s with
  | nil => exact h
  | cons b s ih =>
      rw [escape]
      split
      · next hb => exact .escape (unescape_self hb) ih
      · next hb =>
        rw [not_or] at hb
        exact .plain hb.1 hb.2 ih

theorem stringBody_quoted (s rest : Text) : StringBody (escape s ++ quote :: rest) s rest := by
  have h : StringBody (escape s ++ quote :: rest) (s ++ []) rest := stringBody_escape .close
  rwa [List.append_nil] at h

theorem of_stringBody_escape {s t v rest : Text} (h : StringBody (escape s ++ t) v rest) :
    ∃ s', StringBody t s' rest ∧ v = s ++ s' := by
  induction s generalizing v with
  | nil => exact ⟨v, h, rfl⟩
  | cons b s ih =>
      rw [escape] at h
      split at h
      · next hb =>
        -- an escaped byte is read as that byte
        obtain ⟨c, w, hc, rfl, hw⟩ := of_stringBody_backslash h
        rw [unescape_self hb, Option.some.injEq] at hc
        obtain ⟨s', hs', rfl⟩ := ih hw
        exact ⟨s', hs', by rw [hc]; rfl⟩
      · next hb =>
        rw [not_or] at hb
        obtain ⟨w, rfl, hw⟩ := of_stringBody_plain h hb.1 hb.2
        obtain ⟨s', hs', rfl⟩ := ih hw
        exact ⟨s', hs', rfl⟩

/-- A text without quotes and backslashes is its own quoted form. -/
theorem escape_of_clean {s : Text} (hq : quote ∉ s) (hb : backslash ∉ s) : escape s = s := by
  induction s with
  | nil => rfl
  | cons b s ih =>
      rw [List.mem_cons, not_or] at hq hb
      rw [escape, if_neg, ih hq.2 hb.2]
      rintro (rfl | rfl)
      · exact hq.1 rfl
      · exact hb.1 rfl

theorem unescape_eq_quote {b : Byte} (h : unescape quote = some b) : b = quote := by
  have hself : unescape quote = some quote := by decide
  rw [hself, Option.some.injEq] at h
  exact h.symm

theorem unescape_eq_backslash {b : Byte} (h : unescape b = some backslash) : b = backslash := by
  unfold unescape at h
  split at h
  · cases h
  split at h
  · cases h
  split at h
  · cases h
  split at h
  · next hb => exact hb
  split at h
  · cases h
  · cases h

/-- An ordinary byte stands for itself: what is put before the value moves on by it. -/
theorem stringBody_shift_plain {a : Byte} {y z t rest : Text} (haq : a ≠ quote)
    (hab : a ≠ backslash) (h : StringBody (a :: (y ++ quote :: t)) (z ++ a :: y) rest)
    (hz : quote ∉ z) :
    ∃ w, quote ∉ w ∧ StringBody (y ++ quote :: t) (w ++ y) rest ∧ (w = [] → z = []) := by
  obtain ⟨s, heq, hs⟩ := of_stringBody_plain h haq hab
  cases z with
  | nil =>
      rw [List.nil_append, List.cons.injEq] at heq
      rw [← heq.2] at hs
      exact ⟨[], List.not_mem_nil, hs, fun _ => rfl⟩
  | cons d z =>
      rw [List.cons_append, List.cons.injEq] at heq
      rw [List.mem_cons, not_or] at hz
      refine ⟨z ++ [a], ?_, ?_, fun hnil => absurd hnil (by simp)⟩
      · rw [List.mem_append, List.mem_singleton, not_or]
        exact ⟨hz.2, Ne.symm haq⟩
      · rw [List.append_assoc, List.singleton_append, heq.2]
        exact hs

/-- An escape stands for one byte of two: what is put before the value grows. -/
theorem stringBody_shift_escape {e : Byte} {y z t rest : Text}
    (h : StringBody (backslash :: e :: (y ++ quote :: t)) (z ++ backslash :: e :: y) rest)
    (hz : quote ∉ z) :
    ∃ w, quote ∉ w ∧ StringBody (y ++ quote :: t) (w ++ y) rest ∧ w ≠ [] := by
  obtain ⟨c, s, hc, heq, hs⟩ := of_stringBody_backslash h
  cases z with
  | nil =>
      -- it stands for a backslash, so it is followed by one
      rw [List.nil_append, List.cons.injEq] at heq
      rw [← heq.1] at hc
      rw [unescape_eq_backslash hc] at heq
      rw [← heq.2] at hs
      exact ⟨[backslash], by decide, hs, List.cons_ne_nil _ _⟩
  | cons d z =>
      rw [List.cons_append, List.cons.injEq] at heq
      obtain ⟨rfl, heq⟩ := heq
      rw [List.mem_cons, not_or] at hz
      have he : quote ≠ e := by
        rintro rfl
        exact hz.1 (unescape_eq_quote hc).symm
      refine ⟨z ++ [backslash, e], ?_, ?_, by simp⟩
      · simp only [List.mem_append, List.mem_cons, List.not_mem_nil, or_false, not_or]
        exact ⟨hz.2, by decide, he⟩
      · rw [List.append_assoc]
        rw [← heq] at hs
        exact hs

/-- A backslash before the closing quote takes it in. -/
theorem not_stringBody_backslash_end {z t rest : Text} (hz : quote ∉ z) :
    ¬ StringBody (backslash :: quote :: t) (z ++ [backslash]) rest := by
  intro h
  obtain ⟨c, s, hc, heq, -⟩ := of_stringBody_backslash h
  rw [unescape_eq_quote hc] at heq
  cases z with
  | nil => exact absurd (List.cons.inj heq).1 (by decide)
  | cons d z => exact hz (by rw [(List.cons.inj heq).1]; exact List.mem_cons_self)

/-- A text put between quotes as it is reads as a string that ends with itself only if
    it is clean.  An escape makes the string shorter than its text, so it would run
    past the closing quote, and the quote it takes in would have to stand in `z`. -/
theorem clean_of_stringBody {y z t rest : Text} (h : StringBody (y ++ quote :: t) (z ++ y) rest)
    (hz : quote ∉ z) : z = [] ∧ quote ∉ y ∧ backslash ∉ y := by
  induction hn : y.length using Nat.strong_induction_on generalizing y z with
  | _ n ih =>
  subst hn
  cases y with
  | nil =>
      rw [List.nil_append, List.append_nil] at h
      exact ⟨(of_stringBody_close h).1, List.not_mem_nil, List.not_mem_nil⟩
  | cons a y =>
      rw [List.cons_append] at h
      by_cases haq : a = quote
      · -- the string ends here, but its value does not
        rw [haq] at h
        exact absurd (of_stringBody_close h).1 (by simp)
      by_cases hab : a = backslash
      · -- with less of the text left, nothing stands before it
        exfalso
        rw [hab] at h
        cases y with
        | nil => exact not_stringBody_backslash_end hz h
        | cons e y =>
            have hlt : y.length < (a :: e :: y).length := by
              simp only [List.length_cons]
              omega
            obtain ⟨w, hw, hs, hne⟩ := stringBody_shift_escape h hz
            exact hne (ih _ hlt hs hw rfl).1
      · obtain ⟨w, hw, hs, hnil⟩ := stringBody_shift_plain haq hab h hz
        obtain ⟨hw', hq, hb⟩ := ih _ (Nat.lt_succ_self _) hs hw rfl
        rw [List.mem_cons, List.mem_cons, not_or, not_or]
        exact ⟨hnil hw', ⟨Ne.symm haq, hq⟩, Ne.symm hab, hb⟩

end NomosRt.Lib.EdnText
