import Mathlib.Algebra.BigOperators.Group.List.Basic
import PortRag.Foundation.JsonText

set_option autoImplicit false

/-!
# Foundation: the size of texts

The number of UTF-8 bytes of a text as a sum over its characters, and what quoting and joining
make of it.
-/

namespace PortRag.Foundation

/-- The number of UTF-8 bytes of these characters. -/
def byteSize (cs : List Char) : Nat := (cs.map Char.utf8Size).sum

@[simp] theorem byteSize_nil : byteSize [] = 0 := rfl

@[simp] theorem byteSize_cons (c : Char) (cs : List Char) :
    byteSize (c :: cs) = c.utf8Size + byteSize cs := rfl

@[simp] theorem byteSize_append (cs ds : List Char) :
    byteSize (cs ++ ds) = byteSize cs + byteSize ds := by
  rw [byteSize, List.map_append, List.sum_append, byteSize, byteSize]

/-- Characters that each become a text of one size. -/
theorem byteSize_flatMap {f : Char → List Char} {size : Nat} {cs : List Char}
    (h : ∀ c ∈ cs, byteSize (f c) = size) : byteSize (cs.flatMap f) = cs.length * size := by
  induction cs with
  | nil => rw [List.flatMap_nil, List.length_nil, Nat.zero_mul, byteSize_nil]
  | cons c cs ih =>
      rw [List.flatMap_cons, byteSize_append, h c List.mem_cons_self,
        ih (fun c' hc' => h c' (List.mem_cons_of_mem _ hc')), List.length_cons, Nat.succ_mul,
        Nat.add_comm]

theorem utf8ByteSize_ofList (cs : List Char) : (String.ofList cs).utf8ByteSize = byteSize cs := by
  induction cs with
  | nil => rfl
  | cons c cs ih =>
      rw [String.ofList_cons, String.utf8ByteSize_append, String.utf8ByteSize_singleton, ih,
        byteSize_cons]

theorem byteSize_toList (s : String) : byteSize s.toList = s.utf8ByteSize := by
  rw [← utf8ByteSize_ofList, String.ofList_toList]

/-- A text has at least one byte for each character. -/
theorem length_le_byteSize (cs : List Char) : cs.length ≤ byteSize cs := by
  induction cs with
  | nil => exact Nat.le_refl 0
  | cons c cs ih =>
      have hc := c.utf8Size_pos
      rw [byteSize_cons, List.length_cons]
      omega

/-! ## Quoting -/

/-- An escape has at most six bytes. -/
theorem byteSize_escapeChar (c : Char) : byteSize (escapeChar c) ≤ 6 := by
  have hhex : ∀ n < 16, (hexChar n).utf8Size = 1 := by decide
  unfold escapeChar
  repeat' split
  all_goals first
    | decide
    | skip
  · next hcontrol =>
      simp only [byteSize_cons, byteSize_nil]
      rw [hhex _ (by omega), hhex _ (by omega)]
      decide
  · have hc := c.utf8Size_le_four
    simp only [byteSize_cons, byteSize_nil]
    omega

/-- The quoted text has at most six bytes for each character, and two for the quotes. -/
theorem byteSize_quote_le_length (cs : List Char) : byteSize (quote cs) ≤ 6 * cs.length + 2 := by
  have hescaped : byteSize (cs.flatMap escapeChar) ≤ 6 * cs.length := by
    induction cs with
    | nil => exact Nat.le_refl 0
    | cons c cs ih =>
        have hc := byteSize_escapeChar c
        rw [List.flatMap_cons, byteSize_append, List.length_cons]
        omega
  have hquote : '"'.utf8Size = 1 := by decide
  rw [quote, byteSize_cons, byteSize_append, byteSize_cons, byteSize_nil, hquote]
  omega

/-- So it has at most six bytes for each byte of the text. -/
theorem byteSize_quote_le (cs : List Char) : byteSize (quote cs) ≤ 6 * byteSize cs + 2 := by
  have hlength := byteSize_quote_le_length cs
  have hbytes := length_le_byteSize cs
  omega

/-! ## Joining -/

theorem byteSize_intercalate_le (separator : List Char) (parts : List (List Char)) :
    byteSize (separator.intercalate parts) ≤
      (parts.map byteSize).sum + (parts.length - 1) * byteSize separator := by
  induction parts with
  | nil => exact Nat.zero_le _
  | cons part rest ih =>
      cases rest with
      | nil => simp [List.intercalate]
      | cons next rest =>
          rw [List.intercalate_cons_cons, byteSize_append, byteSize_append, List.map_cons,
            List.sum_cons, List.length_cons, Nat.add_sub_cancel]
          rw [List.length_cons, Nat.add_sub_cancel] at ih
          rw [List.length_cons, Nat.succ_mul]
          omega

end PortRag.Foundation
