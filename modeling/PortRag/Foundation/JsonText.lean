import Mathlib.Data.List.Basic
import Mathlib.Tactic.IntervalCases

set_option autoImplicit false

/-!
# Foundation: self-delimiting text and compact JSON

An encoding is self-delimiting when the encoded value can be told from a text that starts
with it.  Strings quoted as JSON quotes them are; pairs and arrays of self-delimiting
encodings are again, so a compact JSON array determines its items.
-/

namespace PortRag.Foundation

/-- What is encoded, and where its encoding ends, can be read off. -/
def SelfDelimiting {α : Type} (encode : α → List Char) : Prop :=
  ∀ a b rest rest', encode a ++ rest = encode b ++ rest' → a = b ∧ rest = rest'

theorem SelfDelimiting.injective {α : Type} {encode : α → List Char} (h : SelfDelimiting encode) :
    Function.Injective encode := by
  intro a b hab
  exact (h a b [] [] (by rw [hab])).1

/-! ## Quoted strings -/

/-- The hexadecimal digit of `n < 16`, in lower case. -/
def hexChar (n : Nat) : Char := Nat.digitChar n

/-- The value of a hexadecimal digit. -/
def hexValue (c : Char) : Nat := if c.toNat < 58 then c.toNat - 48 else c.toNat - 87

/-- One character inside a quoted string.  Quotes, backslashes and control characters are
escaped; every other character stands for itself. -/
def escapeChar (c : Char) : List Char :=
  if c = '"' then ['\\', '"']
  else if c = '\\' then ['\\', '\\']
  else if c = '\n' then ['\\', 'n']
  else if c = '\r' then ['\\', 'r']
  else if c = '\t' then ['\\', 't']
  else if c.toNat = 12 then ['\\', 'f']
  else if c.toNat = 8 then ['\\', 'b']
  else if c.toNat < 32 then
    ['\\', 'u', '0', '0', hexChar (c.toNat / 16), hexChar (c.toNat % 16)]
  else [c]

/-- Reads one character of a quoted string back. -/
def unescapeChar : List Char → Option (Char × List Char)
  | '\\' :: 'u' :: _ :: _ :: a :: b :: rest =>
      some (Char.ofNat (hexValue a * 16 + hexValue b), rest)
  | '\\' :: 'n' :: rest => some ('\n', rest)
  | '\\' :: 'r' :: rest => some ('\r', rest)
  | '\\' :: 't' :: rest => some ('\t', rest)
  | '\\' :: 'f' :: rest => some (Char.ofNat 12, rest)
  | '\\' :: 'b' :: rest => some (Char.ofNat 8, rest)
  | '\\' :: c :: rest => some (c, rest)
  | c :: rest => some (c, rest)
  | [] => none

/-- A string as JSON quotes it, without escapes for other than ASCII characters. -/
def quote (s : List Char) : List Char := '"' :: (s.flatMap escapeChar ++ ['"'])

theorem unescapeChar_control (n : Nat) (h : n < 32) (rest : List Char) :
    unescapeChar (['\\', 'u', '0', '0', hexChar (n / 16), hexChar (n % 16)] ++ rest) =
      some (Char.ofNat n, rest) := by
  have hvalue : hexValue (hexChar (n / 16)) * 16 + hexValue (hexChar (n % 16)) = n := by
    interval_cases n <;> rfl
  simp only [List.cons_append, List.nil_append, unescapeChar, hvalue]

theorem unescapeChar_self {c : Char} (hc : c ≠ '\\') (rest : List Char) :
    unescapeChar (c :: rest) = some (c, rest) := by
  unfold unescapeChar
  split <;> simp_all

/-- An escaped character is read back. -/
theorem unescapeChar_escapeChar (c : Char) (rest : List Char) :
    unescapeChar (escapeChar c ++ rest) = some (c, rest) := by
  unfold escapeChar
  split
  · next h => subst h; rfl
  split
  · next h => subst h; rfl
  split
  · next h => subst h; rfl
  split
  · next h => subst h; rfl
  split
  · next h => subst h; rfl
  split
  · next h =>
      rw [← Char.ofNat_toNat c, h]
      rfl
  split
  · next h =>
      rw [← Char.ofNat_toNat c, h]
      rfl
  split
  · next h =>
      rw [unescapeChar_control _ h, Char.ofNat_toNat]
  · next hbackslash _ _ _ _ _ _ => exact unescapeChar_self hbackslash rest

/-- An escaped character does not end the string. -/
theorem escapeChar_head (c : Char) : ∃ first rest, escapeChar c = first :: rest ∧ first ≠ '"' := by
  unfold escapeChar
  repeat' split
  all_goals first
    | exact ⟨_, _, rfl, by decide⟩
    | exact ⟨_, _, rfl, ‹_›⟩

theorem escapeChar_selfDelimiting : SelfDelimiting escapeChar := by
  intro a b rest rest' h
  have hread := congrArg unescapeChar h
  rw [unescapeChar_escapeChar, unescapeChar_escapeChar] at hread
  exact Prod.mk.inj (Option.some.inj hread)

/-- A quoted text ends at its own closing quote, whatever follows it: inside, every quote is
escaped. -/
theorem quote_selfDelimiting : SelfDelimiting quote := by
  have hbody : ∀ s t rest rest' : List Char,
      s.flatMap escapeChar ++ '"' :: rest = t.flatMap escapeChar ++ '"' :: rest' →
        s = t ∧ rest = rest' := by
    intro s
    induction s with
    | nil =>
        intro t rest rest' h
        cases t with
        | nil => exact ⟨rfl, by simpa using h⟩
        | cons c t =>
            obtain ⟨first, tail, hfirst, hne⟩ := escapeChar_head c
            rw [List.flatMap_cons, hfirst] at h
            exact absurd (List.cons.inj h).1.symm hne
    | cons a s ih =>
        intro t rest rest' h
        cases t with
        | nil =>
            obtain ⟨first, tail, hfirst, hne⟩ := escapeChar_head a
            rw [List.flatMap_cons, hfirst] at h
            exact absurd (List.cons.inj h).1 hne
        | cons c t =>
            rw [List.flatMap_cons, List.flatMap_cons, List.append_assoc, List.append_assoc] at h
            obtain ⟨rfl, htail⟩ := escapeChar_selfDelimiting _ _ _ _ h
            obtain ⟨rfl, hrest⟩ := ih t rest rest' htail
            exact ⟨rfl, hrest⟩
  intro s t rest rest' h
  rw [quote, quote, List.cons_append, List.cons_append, List.append_assoc, List.append_assoc] at h
  exact hbody s t rest rest' (List.cons.inj h).2

/-! ## Arrays -/

section Arrays

variable {α β : Type}

/-- The array of two encoded values. -/
def pairText (encode : α → List Char) (encode' : β → List Char) (p : α × β) : List Char :=
  '[' :: (encode p.1 ++ ',' :: (encode' p.2 ++ [']']))

/-- The items of an array after the first, and its end. -/
def moreText (encode : α → List Char) : List α → List Char
  | [] => [']']
  | a :: rest => ',' :: (encode a ++ moreText encode rest)

/-- The array of encoded values. -/
def listText (encode : α → List Char) : List α → List Char
  | [] => ['[', ']']
  | a :: rest => '[' :: (encode a ++ moreText encode rest)

theorem pairText_selfDelimiting {encode : α → List Char} {encode' : β → List Char}
    (h : SelfDelimiting encode) (h' : SelfDelimiting encode') :
    SelfDelimiting (pairText encode encode') := by
  rintro ⟨a, b⟩ ⟨c, d⟩ rest rest' heq
  simp only [pairText, List.cons_append, List.append_assoc, List.nil_append] at heq
  obtain ⟨rfl, hsecond⟩ := h _ _ _ _ (List.cons.inj heq).2
  obtain ⟨rfl, hend⟩ := h' _ _ _ _ (List.cons.inj hsecond).2
  exact ⟨rfl, (List.cons.inj hend).2⟩

theorem moreText_selfDelimiting {encode : α → List Char} (h : SelfDelimiting encode) :
    SelfDelimiting (moreText encode) := by
  intro as
  induction as with
  | nil =>
      intro bs rest rest' heq
      cases bs with
      | nil => exact ⟨rfl, (List.cons.inj heq).2⟩
      | cons b bs => exact absurd (List.cons.inj heq).1 (by decide)
  | cons a as ih =>
      intro bs rest rest' heq
      cases bs with
      | nil => exact absurd (List.cons.inj heq).1 (by decide)
      | cons b bs =>
          simp only [moreText, List.cons_append, List.append_assoc] at heq
          obtain ⟨rfl, hmore⟩ := h _ _ _ _ (List.cons.inj heq).2
          obtain ⟨rfl, hrest⟩ := ih bs rest rest' hmore
          exact ⟨rfl, hrest⟩

/-- An array of self-delimiting items determines them, when no item looks like its end. -/
theorem listText_selfDelimiting {encode : α → List Char} (h : SelfDelimiting encode)
    (hstart : ∀ a, ∃ first rest, encode a = first :: rest ∧ first ≠ ']') :
    SelfDelimiting (listText encode) := by
  intro as bs rest rest' heq
  cases as with
  | nil =>
      cases bs with
      | nil => exact ⟨rfl, by simpa [listText] using heq⟩
      | cons b bs =>
          obtain ⟨first, tail, hfirst, hne⟩ := hstart b
          rw [listText, listText, hfirst] at heq
          exact absurd (List.cons.inj (List.cons.inj heq).2).1.symm hne
  | cons a as =>
      cases bs with
      | nil =>
          obtain ⟨first, tail, hfirst, hne⟩ := hstart a
          rw [listText, listText, hfirst] at heq
          exact absurd (List.cons.inj (List.cons.inj heq).2).1 hne
      | cons b bs =>
          simp only [listText, List.cons_append, List.append_assoc] at heq
          obtain ⟨rfl, hmore⟩ := h _ _ _ _ (List.cons.inj heq).2
          obtain ⟨rfl, hrest⟩ := moreText_selfDelimiting h as bs rest rest' hmore
          exact ⟨rfl, hrest⟩

end Arrays

end PortRag.Foundation
