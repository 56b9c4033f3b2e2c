import Mathlib.Data.Nat.Digits.Defs
import Mathlib.Data.Set.Function
import Mathlib.Tactic.IntervalCases
import PortRag.Security.Fields

set_option autoImplicit false

/-!
# The cells of the store

The places that hold a ciphertext, each named by the binding of its value: owner, resource and
a field put together from words, identifiers and decimals.  Two places never have the same
associated data, and outside the staging directory every place has some.
-/

namespace PortRag

/-! ## Identifiers as text -/

namespace Uuid

theorem hexRange_length (u : Uuid) (start n : Nat) : (u.hexRange start n).length = n := by
  simp [hexRange]

theorem str_toList (u : Uuid) :
    u.str.toList = u.hexRange 0 8 ++ '-' :: u.hexRange 8 4 ++ '-' :: u.hexRange 12 4
      ++ '-' :: u.hexRange 16 4 ++ '-' :: u.hexRange 20 12 :=
  String.toList_ofList

theorem str_length (u : Uuid) : u.str.length = 36 := by
  rw [← String.length_toList, str_toList]
  simp [hexRange_length]

theorem digit_lt (u : Uuid) (i : Nat) : u.val / 16 ^ (31 - i) % 16 < 16 :=
  Nat.mod_lt _ (by decide)

/-- A character of an identifier. -/
theorem mem_str {u : Uuid} {c : Char} (h : c ∈ u.str.toList) :
    c = '-' ∨ ∃ n < 16, c = Nat.digitChar n := by
  have hrange : ∀ start n, c ∈ u.hexRange start n → ∃ n < 16, c = Nat.digitChar n := by
    intro start n hc
    obtain ⟨i, -, rfl⟩ := List.mem_map.mp hc
    exact ⟨_, u.digit_lt _, rfl⟩
  rw [str_toList] at h
  simp only [List.mem_append, List.mem_cons] at h
  rcases h with (((h | rfl | h) | rfl | h) | rfl | h) | rfl | h
  all_goals first | exact .inl rfl | exact .inr (hrange _ _ h)

theorem digitChar_injOn {a b : Nat} (ha : a < 16) (hb : b < 16)
    (h : Nat.digitChar a = Nat.digitChar b) : a = b := by
  revert h
  have hall : ∀ a < 16, ∀ b < 16, Nat.digitChar a = Nat.digitChar b → a = b := by decide
  exact hall a ha b hb

/-- Equal digits from the left. -/
theorem digit_eq_of_hexRange {u v : Uuid} {start n : Nat} (h : u.hexRange start n = v.hexRange start n)
    {i : Nat} (hi : i < n) :
    u.val / 16 ^ (31 - (start + i)) % 16 = v.val / 16 ^ (31 - (start + i)) % 16 := by
  have hchar := (List.map_inj_left.mp h) i (List.mem_range.mpr hi)
  exact digitChar_injOn (u.digit_lt _) (v.digit_lt _) hchar

/-- An identifier is the sum of its digits. -/
theorem eq_of_digits {u v : Uuid}
    (h : ∀ i < 32, u.val / 16 ^ (31 - i) % 16 = v.val / 16 ^ (31 - i) % 16) : u = v := by
  have hmod : ∀ k ≤ 32, u.val % 16 ^ k = v.val % 16 ^ k := by
    intro k hk
    induction k with
    | zero => rw [Nat.pow_zero, Nat.mod_one, Nat.mod_one]
    | succ k ih =>
        have hdigit := h (31 - k) (by omega)
        rw [show 31 - (31 - k) = k by omega] at hdigit
        rw [Nat.mod_pow_succ, Nat.mod_pow_succ, ih (by omega), hdigit]
  have hall := hmod 32 (Nat.le_refl _)
  rw [Nat.mod_eq_of_lt (by have := u.isLt; omega), Nat.mod_eq_of_lt (by have := v.isLt; omega)] at hall
  exact Fin.ext hall

theorem str_injective : Function.Injective Uuid.str := by
  intro u v h
  have hlist : u.str.toList = v.str.toList := congrArg String.toList h
  rw [str_toList, str_toList] at hlist
  have hlen : ∀ start n, (u.hexRange start n).length = (v.hexRange start n).length := by
    intro start n
    rw [hexRange_length, hexRange_length]
  simp only [List.append_assoc, List.cons_append] at hlist
  obtain ⟨h0, hlist⟩ := List.append_inj hlist (hlen 0 8)
  obtain ⟨h8, hlist⟩ := List.append_inj (List.cons.inj hlist).2 (hlen 8 4)
  obtain ⟨h12, hlist⟩ := List.append_inj (List.cons.inj hlist).2 (hlen 12 4)
  obtain ⟨h16, hlist⟩ := List.append_inj (List.cons.inj hlist).2 (hlen 16 4)
  have h20 := (List.cons.inj hlist).2
  refine eq_of_digits fun i hi => ?_
  by_cases hi8 : i < 8
  · simpa using digit_eq_of_hexRange h0 hi8
  by_cases hi12 : i < 12
  · have hdigit := digit_eq_of_hexRange h8 (i := i - 8) (by omega)
    rwa [show 8 + (i - 8) = i by omega] at hdigit
  by_cases hi16 : i < 16
  · have hdigit := digit_eq_of_hexRange h12 (i := i - 12) (by omega)
    rwa [show 12 + (i - 12) = i by omega] at hdigit
  by_cases hi20 : i < 20
  · have hdigit := digit_eq_of_hexRange h16 (i := i - 16) (by omega)
    rwa [show 16 + (i - 16) = i by omega] at hdigit
  · have hdigit := digit_eq_of_hexRange h20 (i := i - 20) (by omega)
    rwa [show 20 + (i - 20) = i by omega] at hdigit

end Uuid

end PortRag

namespace PortRag.Security

open PortRag.Foundation PortRag.Http PortRag.Ingest PortRag.Knowledge

/-! ## Cells -/

/-- What is stored of a document and its webpage, each under the document's identifier. -/
inductive DocumentField where
  | name
  | error
  | chunkText (seq : Int)
  | chunkMetadata (seq : Int)
  | url (index : Nat)
  | content
  | syncError
  /-- The input of the fingerprint, which is looked up and not encrypted. -/
  | fingerprint

/-- What a revision stores of a document, each under the revision's identifier. -/
inductive FrozenField where
  | name
  | text (seq : Int)
  | metadata (seq : Int)

/-- The lines of a staged upload, each under the name of its file. -/
inductive UploadField where
  | chunk (index : Nat)
  | manifest

/-- The text of the field, as the code puts it together. -/
def DocumentField.text : DocumentField → String
  | .name => "document:name"
  | .error => "document:error"
  | .chunkText seq => chunkTextField seq
  | .chunkMetadata seq => chunkMetadataField seq
  | .url index => urlField index
  | .content => "webpage:content"
  | .syncError => "webpage:error"
  | .fingerprint => "webpage:content-fingerprint"

/-- The text of the field of a frozen document. -/
def FrozenField.fieldText (documentId : Uuid) : FrozenField → String
  | .name => frozenNameField documentId
  | .text seq => frozenTextField documentId seq
  | .metadata seq => frozenMetadataField documentId seq

/-- The text of the field of a staged line. -/
def UploadField.text : UploadField → String
  | .chunk index => "upload:chunk:" ++ toString index
  | .manifest => "upload:manifest"

/-- A place that holds a value. -/
inductive Cell where
  | document (owner documentId : Uuid) (field : DocumentField)
  | frozen (owner revisionId documentId : Uuid) (field : FrozenField)
  | upload (owner : Uuid) (name : String) (field : UploadField)

/-- The binding of a cell: its owner, the resource that it is stored with, and its field. -/
def Cell.binding : Cell → StorageBinding
  | .document owner documentId field => ⟨owner.str, documentId.str, field.text⟩
  | .frozen owner revisionId documentId field =>
      ⟨owner.str, revisionId.str, field.fieldText documentId⟩
  | .upload owner name field => ⟨owner.str, name, field.text⟩

/-- A value as a whole, or a part of a large value.  Manifests are no large values, so parts have
no parts. -/
inductive CellPart where
  | whole
  | chunk (index : Nat)
  | manifest

/-- The binding of a part under this binding. -/
def CellPart.of (binding : StorageBinding) : CellPart → StorageBinding
  | .whole => binding
  | .chunk index => binding.part (chunkName index)
  | .manifest => binding.part "manifest"

/-- The binding of a part of a cell. -/
def Cell.bindingOf (cell : Cell) (part : CellPart) : StorageBinding := part.of cell.binding

/-! ## Components

The field of a cell is a list of words, identifiers and decimals between colons. -/

/-- `":".join(components)`. -/
def joinColon (components : List String) : String := ":".intercalate components

/-- No component holds a colon. -/
def Components (components : List String) : Prop :=
  components ≠ [] ∧ ∀ c ∈ components, ':' ∉ c.toList

theorem joinColon_injOn {xs ys : List String} (hx : Components xs) (hy : Components ys)
    (h : joinColon xs = joinColon ys) : xs = ys := by
  have hlists := congrArg String.toList h
  rw [joinColon, joinColon, String.toList_intercalate, String.toList_intercalate] at hlists
  have hsplit : ∀ {zs : List String}, Components zs →
      ([':'].intercalate (zs.map String.toList)).splitOn ':' = zs.map String.toList := by
    intro zs hz
    refine List.splitOn_intercalate ':' ?_ (by simp [hz.1])
    intro l hl
    obtain ⟨c, hc, rfl⟩ := List.mem_map.mp hl
    exact hz.2 c hc
  have hmaps : xs.map String.toList = ys.map String.toList := by
    rw [← hsplit hx, ← hsplit hy]
    exact congrArg (List.splitOn ':') hlists
  exact List.map_injective_iff.mpr (fun _ _ hab => String.toList_injective hab) hmaps

theorem joinColon_append {xs ys : List String} (hx : xs ≠ []) (hy : ys ≠ []) :
    joinColon xs ++ ":" ++ joinColon ys = joinColon (xs ++ ys) :=
  (String.intercalate_append_of_ne_nil hx hy).symm

/-- The words and numbers of the field between its colons. -/
def DocumentField.components : DocumentField → List String
  | .name => ["document", "name"]
  | .error => ["document", "error"]
  | .chunkText seq => ["chunk", toString seq, "text"]
  | .chunkMetadata seq => ["chunk", toString seq, "metadata"]
  | .url index => ["webpage", "url", toString index]
  | .content => ["webpage", "content"]
  | .syncError => ["webpage", "error"]
  | .fingerprint => ["webpage", "content-fingerprint"]

/-- Those of a field of a frozen document. -/
def FrozenField.components (documentId : Uuid) : FrozenField → List String
  | .name => ["document", documentId.str, "name"]
  | .text seq => ["document", documentId.str, "chunk", toString seq, "text"]
  | .metadata seq => ["document", documentId.str, "chunk", toString seq, "metadata"]

/-- Those of the field of a staged line. -/
def UploadField.components : UploadField → List String
  | .chunk index => ["upload", "chunk", toString index]
  | .manifest => ["upload", "manifest"]

/-- Those of the field of a cell. -/
def Cell.components : Cell → List String
  | .document _ _ field => field.components
  | .frozen _ _ documentId field => field.components documentId
  | .upload _ _ field => field.components

/-- What a part adds to the components of its cell. -/
def CellPart.components : CellPart → List String
  | .whole => []
  | .chunk index => ["chunk", toString index]
  | .manifest => ["manifest"]

theorem Cell.field_eq (cell : Cell) : cell.binding.field = joinColon cell.components := by
  cases cell with
  | document owner documentId field =>
      cases field <;>
        simp [Cell.binding, Cell.components, DocumentField.text, DocumentField.components, joinColon,
          chunkTextField, chunkMetadataField, urlField, ← String.toList_inj]
  | frozen owner revisionId documentId field =>
      cases field <;>
        simp [Cell.binding, Cell.components, FrozenField.fieldText, FrozenField.components,
          joinColon, frozenNameField, frozenTextField, frozenMetadataField, ← String.toList_inj]
  | upload owner name field =>
      cases field <;>
        simp [Cell.binding, Cell.components, UploadField.text, UploadField.components, joinColon,
          ← String.toList_inj]

theorem CellPart.field_eq (cell : Cell) (part : CellPart) :
    (cell.bindingOf part).field = joinColon (cell.components ++ part.components) := by
  have hne : cell.components ≠ [] := by
    cases cell with
    | document _ _ field => cases field <;> exact List.cons_ne_nil _ _
    | frozen _ _ _ field => cases field <;> exact List.cons_ne_nil _ _
    | upload _ _ field => cases field <;> exact List.cons_ne_nil _ _
  cases part with
  | whole =>
      rw [CellPart.components, List.append_nil]
      exact cell.field_eq
  | chunk index =>
      rw [CellPart.components, ← joinColon_append hne (List.cons_ne_nil _ _), ← cell.field_eq]
      simp [Cell.bindingOf, CellPart.of, StorageBinding.part, joinColon, chunkName]
  | manifest =>
      rw [CellPart.components, ← joinColon_append hne (List.cons_ne_nil _ _), ← cell.field_eq]
      rfl

/-! ## Components hold no colon -/

theorem colon_not_mem_int (seq : Int) : ':' ∉ (toString seq).toList := by
  cases seq with
  | ofNat n => exact colon_not_mem_digits n
  | negSucc n =>
      have hminus : (toString (Int.negSucc n)).toList = '-' :: (toString (n + 1)).toList := by
        simp [toString, Int.repr]
      rw [hminus]
      intro h
      rcases List.mem_cons.mp h with h | h
      · exact absurd h (by decide)
      · exact colon_not_mem_digits (n + 1) h

theorem colon_not_mem_str (u : Uuid) : ':' ∉ u.str.toList := by
  intro h
  rcases Uuid.mem_str h with h | ⟨n, hn, h⟩
  · exact absurd h (by decide)
  · revert h
    have hall : ∀ n < 16, ':' ≠ Nat.digitChar n := by decide
    exact hall n hn

theorem Cell.components_ok (cell : Cell) (part : CellPart) :
    Components (cell.components ++ part.components) := by
  have hint : ∀ seq : Int, ':' ∉ seq.repr.toList := colon_not_mem_int
  have hnat : ∀ n : Nat, ':' ∉ Nat.toDigits 10 n := by
    intro n
    have hdigits : (toString n).toList = Nat.toDigits 10 n := by simp
    rw [← hdigits]
    exact colon_not_mem_digits n
  have hpart : ∀ c ∈ part.components, ':' ∉ c.toList := by
    cases part with
    | whole => simp [CellPart.components]
    | chunk index => simp [CellPart.components, hnat]
    | manifest => simp [CellPart.components]
  have hcell : cell.components ≠ [] ∧ ∀ c ∈ cell.components, ':' ∉ c.toList := by
    cases cell with
    | document _ _ field =>
        cases field <;> simp [Cell.components, DocumentField.components, hint, hnat]
    | frozen _ _ documentId field =>
        cases field <;> simp [Cell.components, FrozenField.components, hint, colon_not_mem_str]
    | upload _ _ field => cases field <;> simp [Cell.components, UploadField.components, hnat]
  refine ⟨by simp [hcell.1], fun c hc => ?_⟩
  rcases List.mem_append.mp hc with hc | hc
  · exact hcell.2 c hc
  · exact hpart c hc

/-! ## Injectivity -/

theorem repr_nat_inj {a b : Nat} : a.repr = b.repr ↔ a = b := by
  refine ⟨fun h => ?_, congrArg _⟩
  have hdigits : Nat.toDigits 10 a = Nat.toDigits 10 b := String.ofList_injective h
  have hvalue := congrArg (fun digits => Nat.ofDigitChars 10 digits 0) hdigits
  simpa only [Nat.ofDigitChars_ten_toDigits] using hvalue

theorem repr_int_inj {a b : Int} : a.repr = b.repr ↔ a = b := by
  -- only the text of a negative number has a dash
  have hdash : ∀ m n : Nat, (Int.ofNat m).repr ≠ (Int.negSucc n).repr := by
    intro m n h
    have hmem : '-' ∈ Nat.toDigits 10 m := by
      have hlist := congrArg String.toList h
      simp only [Int.repr, Nat.repr, String.toList_ofList, String.toList_append] at hlist
      rw [hlist]
      exact List.mem_append_left _ (by decide)
    exact absurd (Nat.isDigit_of_mem_toDigits (by decide) (by decide) hmem) (by decide)
  refine ⟨fun h => ?_, congrArg _⟩
  cases a with
  | ofNat m =>
      cases b with
      | ofNat n => exact congrArg Int.ofNat (repr_nat_inj.mp h)
      | negSucc n => exact absurd h (hdash m n)
  | negSucc m =>
      cases b with
      | ofNat n => exact absurd h.symm (hdash n m)
      | negSucc n =>
          have hlist := congrArg String.toList h
          simp only [Int.repr, String.toList_append] at hlist
          have hsame := repr_nat_inj.mp (String.toList_inj.mp (List.append_cancel_left hlist))
          exact congrArg Int.negSucc (Nat.succ.inj hsame)

/-- Different numbers are written differently. -/
theorem toString_nat_inj {a b : Nat} : toString a = toString b ↔ a = b := repr_nat_inj

theorem toString_int_inj {a b : Int} : toString a = toString b ↔ a = b := repr_int_inj

/-- The last two components of a cell are not those of a part of a cell, except for the words
after `upload`. -/
theorem Cell.ends (cell : Cell) : ∃ start a b, cell.components = start ++ [a, b] ∧
    (a = "chunk" → (∃ n : Nat, b = toString n) → start = ["upload"]) ∧
    (b = "manifest" → start = []) := by
  have hword : ∀ {word : String} {c : Char}, c ∈ word.toList → c.isDigit = false →
      ¬ ∃ n : Nat, word = toString n := by
    rintro word c hmem hdigit ⟨n, hn⟩
    exact ne_toString hmem hdigit n hn
  have htext : ¬ ∃ n : Nat, "text" = toString n := hword (c := 't') (by decide) (by decide)
  have hmetadata : ¬ ∃ n : Nat, "metadata" = toString n :=
    hword (c := 'm') (by decide) (by decide)
  have hname : ¬ ∃ n : Nat, "name" = toString n := hword (c := 'n') (by decide) (by decide)
  have hdecimal : ∀ n : Nat, toString n ≠ "manifest" :=
    fun n h => ne_toString (c := 'm') (by decide) (by decide) n h.symm
  cases cell with
  | document _ _ field =>
      cases field with
      | name => exact ⟨[], "document", "name", rfl, by simp, by simp⟩
      | error => exact ⟨[], "document", "error", rfl, by simp, by simp⟩
      | chunkText seq => exact ⟨["chunk"], toString seq, "text", rfl, fun _ h => absurd h htext, by simp⟩
      | chunkMetadata seq =>
          exact ⟨["chunk"], toString seq, "metadata", rfl, fun _ h => absurd h hmetadata, by simp⟩
      | url index =>
          exact ⟨["webpage"], "url", toString index, rfl, by simp, fun h => absurd h (hdecimal _)⟩
      | content => exact ⟨[], "webpage", "content", rfl, by simp, by simp⟩
      | syncError => exact ⟨[], "webpage", "error", rfl, by simp, by simp⟩
      | fingerprint => exact ⟨[], "webpage", "content-fingerprint", rfl, by simp, by simp⟩
  | frozen _ _ documentId field =>
      cases field with
      | name => exact ⟨["document"], documentId.str, "name", rfl, fun _ h => absurd h hname, by simp⟩
      | text seq =>
          exact ⟨["document", documentId.str, "chunk"], toString seq, "text", rfl,
            fun _ h => absurd h htext, by simp⟩
      | metadata seq =>
          exact ⟨["document", documentId.str, "chunk"], toString seq, "metadata", rfl,
            fun _ h => absurd h hmetadata, by simp⟩
  | upload _ _ field =>
      cases field with
      | chunk index =>
          exact ⟨["upload"], "chunk", toString index, rfl, fun _ _ => rfl,
            fun h => absurd h (hdecimal _)⟩
      | manifest => exact ⟨[], "upload", "manifest", rfl, by simp, fun _ => rfl⟩

theorem DocumentField.components_injective : Function.Injective DocumentField.components := by
  intro f g h
  cases f <;> cases g <;> simp_all only [DocumentField.components, toString_int_inj,
    toString_nat_inj, List.cons.injEq,
    String.reduceEq, List.ne_cons_self, List.cons_ne_self, and_true, true_and, and_false, false_and,
    and_self]

theorem FrozenField.components_inj {d d' : Uuid} {f g : FrozenField}
    (h : f.components d = g.components d') : d = d' ∧ f = g := by
  have hid : d = d' := by
    cases f <;> cases g <;> simp [FrozenField.components] at h
    · exact Uuid.str_injective h
    · exact Uuid.str_injective h.1
    · exact Uuid.str_injective h.1
  refine ⟨hid, ?_⟩
  cases f <;> cases g <;> simp_all only [FrozenField.components, toString_int_inj, List.cons.injEq,
    String.reduceEq, and_true, true_and, and_false, false_and]

theorem UploadField.components_injective : Function.Injective UploadField.components := by
  intro f g h
  cases f <;> cases g <;> simp_all only [UploadField.components, toString_nat_inj, List.cons.injEq,
    String.reduceEq, List.ne_cons_self, List.cons_ne_self, and_true, true_and, and_false, and_self]

theorem document_ne_frozen (f : DocumentField) (d : Uuid) (g : FrozenField) :
    f.components ≠ g.components d := by
  cases f <;> cases g <;> simp [DocumentField.components, FrozenField.components]

theorem document_ne_upload (f : DocumentField) (g : UploadField) : f.components ≠ g.components := by
  cases f <;> cases g <;> simp [DocumentField.components, UploadField.components]

theorem frozen_ne_upload (d : Uuid) (f : FrozenField) (g : UploadField) :
    f.components d ≠ g.components := by
  cases f <;> cases g <;> simp [FrozenField.components, UploadField.components]

/-- Owner, resource and components determine the cell. -/
theorem Cell.eq_of_components {a b : Cell} (howner : a.binding.ownerId = b.binding.ownerId)
    (hresource : a.binding.resourceId = b.binding.resourceId)
    (h : a.components = b.components) : a = b := by
  cases a with
  | document owner documentId f =>
      cases b with
      | document owner' documentId' g =>
          rw [Uuid.str_injective howner, Uuid.str_injective hresource,
            DocumentField.components_injective h]
      | frozen => exact absurd h (document_ne_frozen _ _ _)
      | upload => exact absurd h (document_ne_upload _ _)
  | frozen owner revisionId documentId f =>
      cases b with
      | document => exact absurd h.symm (document_ne_frozen _ _ _)
      | frozen owner' revisionId' documentId' g =>
          obtain ⟨hid, hfield⟩ := FrozenField.components_inj h
          rw [Uuid.str_injective howner, Uuid.str_injective hresource, hid, hfield]
      | upload => exact absurd h (frozen_ne_upload _ _ _)
  | upload owner name f =>
      cases b with
      | document => exact absurd h.symm (document_ne_upload _ _)
      | frozen => exact absurd h.symm (frozen_ne_upload _ _ _)
      | upload owner' name' g =>
          rw [Uuid.str_injective howner, show name = name' from hresource,
            UploadField.components_injective h]

/-- No part of a cell is itself a cell: only the fields of an upload end like those of parts, and
`upload` is no cell. -/
theorem Cell.ne_part (a b : Cell) {part : CellPart} (hpart : part ≠ .whole) :
    a.components ≠ b.components ++ part.components := by
  obtain ⟨start, x, y, ha, hchunk, hmanifest⟩ := a.ends
  obtain ⟨start', x', y', hb, -, -⟩ := b.ends
  rw [ha, hb]
  intro h
  cases part with
  | whole => exact hpart rfl
  | chunk index =>
      obtain ⟨hstart, hends⟩ := List.append_inj' h rfl
      obtain ⟨hx, hends⟩ := List.cons.inj hends
      have hupload := hchunk hx ⟨index, (List.cons.inj hends).1⟩
      rw [hstart] at hupload
      have hshort := congrArg List.length hupload
      simp at hshort
  | manifest =>
      have hlast : (start ++ [x]) ++ [y] = (start' ++ [x', y']) ++ ["manifest"] := by
        rw [List.append_assoc]
        exact h
      obtain ⟨hstart, hends⟩ := List.append_inj' hlast rfl
      rw [hmanifest (List.cons.inj hends).1] at hstart
      have hshort := congrArg List.length hstart
      simp at hshort

/-- The binding of a part of a cell determines the cell and the part.  The components of a field
name have no colon in them, so the name is read back one by one; a chunk and the manifest of a cell
are kept apart by the last component. -/
theorem Cell.bindingOf_injective {a b : Cell} {part part' : CellPart}
    (h : a.bindingOf part = b.bindingOf part') : a = b ∧ part = part' := by
  have howner : ∀ (cell : Cell) (p : CellPart), (cell.bindingOf p).ownerId = cell.binding.ownerId := by
    intro cell p
    cases p <;> rfl
  have hresource : ∀ (cell : Cell) (p : CellPart),
      (cell.bindingOf p).resourceId = cell.binding.resourceId := by
    intro cell p
    cases p <;> rfl
  have hsameOwner : a.binding.ownerId = b.binding.ownerId := by
    rw [← howner a part, ← howner b part', h]
  have hsameResource : a.binding.resourceId = b.binding.resourceId := by
    rw [← hresource a part, ← hresource b part', h]
  have hfields := congrArg StorageBinding.field h
  rw [CellPart.field_eq, CellPart.field_eq] at hfields
  have hcomponents := joinColon_injOn (a.components_ok part) (b.components_ok part') hfields
  have hsame : part = part' → a = b ∧ part = part' := by
    intro hpart
    rw [hpart] at hcomponents
    exact ⟨Cell.eq_of_components hsameOwner hsameResource (List.append_cancel_right hcomponents), hpart⟩
  have hdecimal : ∀ index : Nat, toString index ≠ "manifest" :=
    fun index hlast => ne_toString (c := 'm') (by decide) (by decide) index hlast.symm
  cases part with
  | whole =>
      rw [CellPart.components, List.append_nil] at hcomponents
      by_cases hpart : part' = .whole
      · exact hsame hpart.symm
      · exact absurd hcomponents (a.ne_part b hpart)
  | chunk index =>
      cases part' with
      | whole =>
          rw [show CellPart.whole.components = [] from rfl, List.append_nil] at hcomponents
          exact absurd hcomponents.symm (b.ne_part a (by simp))
      | chunk index' =>
          obtain ⟨-, hends⟩ := List.append_inj' hcomponents rfl
          have hindex := (List.cons.inj (List.cons.inj hends).2).1
          exact hsame (congrArg CellPart.chunk (toString_nat_inj.mp hindex))
      | manifest =>
          have hlast := congrArg List.getLast? hcomponents
          simp [CellPart.components] at hlast
          exact absurd hlast (hdecimal index)
  | manifest =>
      cases part' with
      | whole =>
          rw [show CellPart.whole.components = [] from rfl, List.append_nil] at hcomponents
          exact absurd hcomponents.symm (b.ne_part a (by simp))
      | chunk index =>
          have hlast := congrArg List.getLast? hcomponents
          simp [CellPart.components] at hlast
          exact absurd hlast.symm (hdecimal index)
      | manifest => exact hsame rfl

/-! ## Cells have associated data -/

/-- Characters that may stand anywhere in a part of a binding. -/
def plainChar (c : Char) : Bool := !isSpace c && 32 ≤ c.toNat && c.toNat ≠ 127

/-- Text of such characters. -/
def Plain (value : String) : Prop := ∀ c ∈ value.toList, plainChar c = true

theorem plain_of_all {value : String} (h : value.toList.all plainChar = true) : Plain value :=
  List.all_eq_true.mp h

theorem Plain.append {a b : String} (ha : Plain a) (hb : Plain b) : Plain (a ++ b) := by
  intro c hc
  rw [String.toList_append] at hc
  rcases List.mem_append.mp hc with hc | hc
  · exact ha c hc
  · exact hb c hc

theorem plain_nat (n : Nat) : Plain (toString n) := by
  intro c hc
  have hdigit := toString_digits n c hc
  simp only [Char.isDigit, Bool.and_eq_true, decide_eq_true_eq, ge_iff_le, UInt32.le_iff_toNat_le]
    at hdigit
  have hlow : 48 ≤ c.toNat := hdigit.1
  have hhigh : c.toNat ≤ 57 := hdigit.2
  simp only [plainChar, isSpace, Bool.and_eq_true, Bool.not_eq_true', Bool.or_eq_false_iff,
    Bool.and_eq_false_iff, decide_eq_true_eq, decide_eq_false_iff_not]
  omega

theorem plain_int (seq : Int) : Plain (toString seq) := by
  cases seq with
  | ofNat n => exact plain_nat n
  | negSucc n =>
      have hminus : toString (Int.negSucc n) = "-" ++ toString (n + 1) := by
        simp [toString, Int.repr]
      rw [hminus]
      exact Plain.append (plain_of_all (by decide)) (plain_nat _)

theorem plain_str (u : Uuid) : Plain u.str := by
  intro c hc
  rcases Uuid.mem_str hc with rfl | ⟨n, hn, rfl⟩
  · decide
  · have hall : ∀ n < 16, plainChar (Nat.digitChar n) = true := by decide
    exact hall n hn

/-- Plain text of a moderate length may stand in a binding. -/
theorem not_invalidPart {value : String} (hne : value ≠ "") (hlength : value.length ≤ 256)
    (h : Plain value) : invalidPart value = false := by
  have hspace : ∀ c ∈ value.toList, isSpace c = false := by
    intro c hc
    have hplain := h c hc
    simp only [plainChar, Bool.and_eq_true, Bool.not_eq_true'] at hplain
    exact hplain.1.1
  have hdrop : ∀ l : List Char, (∀ c ∈ l, isSpace c = false) → l.dropWhile isSpace = l := by
    intro l hl
    cases l with
    | nil => rfl
    | cons c rest => rw [List.dropWhile_cons_of_neg (by rw [hl c List.mem_cons_self]; decide)]
  have hstrip : strip value = value := by
    rw [strip, hdrop _ hspace, hdrop _ (fun c hc => hspace c (List.mem_reverse.mp hc)),
      List.reverse_reverse, String.ofList_toList]
  have hcontrol : value.toList.any (fun c => c.toNat < 32 || c.toNat = 127) = false := by
    rw [List.any_eq_false]
    intro c hc
    have hplain := h c hc
    simp only [plainChar, Bool.and_eq_true, decide_eq_true_eq] at hplain
    simp only [Bool.or_eq_true, decide_eq_true_eq]
    omega
  simp only [invalidPart, hcontrol, hstrip, Bool.or_false, Bool.or_eq_false_iff,
    decide_eq_false_iff_not]
  exact ⟨⟨hne, by omega⟩, by simp⟩

/-- Chunk numbers are 32-bit integers, and an index is that of a Python list. -/
def DocumentField.InRange : DocumentField → Prop
  | .chunkText seq => -2 ^ 31 ≤ seq ∧ seq < 2 ^ 31
  | .chunkMetadata seq => -2 ^ 31 ≤ seq ∧ seq < 2 ^ 31
  | .url index => index < 2 ^ 63
  | _ => True

/-- The chunk numbers of a revision are 32-bit integers too. -/
def FrozenField.InRange : FrozenField → Prop
  | .name => True
  | .text seq => -2 ^ 31 ≤ seq ∧ seq < 2 ^ 31
  | .metadata seq => -2 ^ 31 ≤ seq ∧ seq < 2 ^ 31

/-- A cell in the database, with numbers as the database has them. -/
def Cell.InDatabase : Cell → Prop
  | .document _ _ field => field.InRange
  | .frozen _ _ _ field => field.InRange
  | .upload _ _ _ => False

/-- The index of a chunk is that of a Python list. -/
def CellPart.InRange : CellPart → Prop
  | .chunk index => index < 2 ^ 63
  | _ => True

theorem length_nat {n : Nat} (h : n < 2 ^ 63) : (toString n).length ≤ 19 :=
  Nat.repr_length n 19 (by decide) (by omega)

theorem length_int {seq : Int} (h : -2 ^ 31 ≤ seq ∧ seq < 2 ^ 31) : (toString seq).length ≤ 11 := by
  cases seq with
  | ofNat n =>
      have hlength := Nat.repr_length n 10 (by decide) (Int.ofNat_lt.mp (lt_trans h.2 (by decide)))
      exact Nat.le_succ_of_le hlength
  | negSucc n =>
      have hminus : toString (Int.negSucc n) = "-" ++ toString (n + 1) := by
        simp [toString, Int.repr]
      have hlength := Nat.repr_length (n + 1) 10 (by decide) (by have := h.1; omega)
      rw [hminus, String.length_append]
      exact Nat.add_le_add_left hlength 1

/-- The field of a cell in the database is a plain text of a moderate length. -/
theorem Cell.field_plain {cell : Cell} (h : cell.InDatabase) :
    cell.binding.field ≠ "" ∧ cell.binding.field.length ≤ 100 ∧ Plain cell.binding.field := by
  have hseq : ∀ {start suffix : String} {seq : Int}, Plain start → Plain suffix →
      start.length ≤ 52 → suffix.length ≤ 9 → suffix ≠ "" → (-2 ^ 31 ≤ seq ∧ seq < 2 ^ 31) →
      start ++ toString seq ++ suffix ≠ "" ∧ (start ++ toString seq ++ suffix).length ≤ 100 ∧
        Plain (start ++ toString seq ++ suffix) := by
    intro start suffix seq hstart hsuffix hlength hshort hne hrange
    refine ⟨fun hempty => hne (String.append_eq_empty_iff.mp hempty).2, ?_,
      (hstart.append (plain_int seq)).append hsuffix⟩
    rw [String.length_append, String.length_append]
    have hint := length_int hrange
    omega
  have hfrozen : ∀ documentId : Uuid, Plain ("document:" ++ documentId.str ++ ":chunk:") ∧
      ("document:" ++ documentId.str ++ ":chunk:").length ≤ 52 := by
    intro documentId
    refine ⟨Plain.append (Plain.append (plain_of_all (by decide)) (plain_str documentId)) (plain_of_all (by decide)), ?_⟩
    rw [String.length_append, String.length_append, Uuid.str_length]
    decide
  have hword : ∀ word : String, word ≠ "" → word.length ≤ 100 → word.toList.all plainChar = true →
      word ≠ "" ∧ word.length ≤ 100 ∧ Plain word :=
    fun word hne hlength hplain => ⟨hne, hlength, plain_of_all hplain⟩
  cases cell with
  | upload => exact h.elim
  | document owner documentId field =>
      cases field with
      | chunkText seq =>
          exact hseq (plain_of_all (by decide)) (plain_of_all (by decide)) (by decide) (by decide) (by decide) h
      | chunkMetadata seq =>
          exact hseq (plain_of_all (by decide)) (plain_of_all (by decide)) (by decide) (by decide) (by decide) h
      | url index =>
          change "webpage:url:" ++ toString index ≠ "" ∧ ("webpage:url:" ++ toString index).length ≤ 100 ∧
            Plain ("webpage:url:" ++ toString index)
          refine ⟨fun hempty => absurd (String.append_eq_empty_iff.mp hempty).1 (by decide), ?_,
            Plain.append (plain_of_all (by decide)) (plain_nat index)⟩
          rw [String.length_append]
          have hnat := length_nat h
          have hword : "webpage:url:".length = 12 := by decide
          omega
      | name => exact hword "document:name" (by decide) (by decide) (by decide)
      | error => exact hword "document:error" (by decide) (by decide) (by decide)
      | content => exact hword "webpage:content" (by decide) (by decide) (by decide)
      | syncError => exact hword "webpage:error" (by decide) (by decide) (by decide)
      | fingerprint => exact hword "webpage:content-fingerprint" (by decide) (by decide) (by decide)
  | frozen owner revisionId documentId field =>
      cases field with
      | name =>
          change "document:" ++ documentId.str ++ ":name" ≠ "" ∧
            ("document:" ++ documentId.str ++ ":name").length ≤ 100 ∧
            Plain ("document:" ++ documentId.str ++ ":name")
          refine ⟨fun hempty => absurd (String.append_eq_empty_iff.mp hempty).2 (by decide), ?_,
            Plain.append (Plain.append (plain_of_all (by decide)) (plain_str documentId)) (plain_of_all (by decide))⟩
          rw [String.length_append, String.length_append, Uuid.str_length]
          decide
      | text seq =>
          exact hseq (hfrozen documentId).1 (plain_of_all (by decide)) (hfrozen documentId).2 (by decide)
            (by decide) h
      | metadata seq =>
          exact hseq (hfrozen documentId).1 (plain_of_all (by decide)) (hfrozen documentId).2 (by decide)
            (by decide) h

/-- So is that of a part of it. -/
theorem CellPart.field_plain {cell : Cell} {part : CellPart} (h : cell.InDatabase)
    (hpart : part.InRange) : (cell.bindingOf part).field ≠ "" ∧
      (cell.bindingOf part).field.length ≤ 256 ∧ Plain (cell.bindingOf part).field := by
  obtain ⟨hne, hlength, hplain⟩ := Cell.field_plain h
  have hcolon : Plain ":" := plain_of_all (by decide)
  have hpartName : ∀ name : String, name.length ≤ 25 → Plain name →
      cell.binding.field ++ ":" ++ name ≠ "" ∧
        (cell.binding.field ++ ":" ++ name).length ≤ 256 ∧
        Plain (cell.binding.field ++ ":" ++ name) := by
    intro name hshort hname
    refine ⟨fun hempty => ?_, ?_, (hplain.append hcolon).append hname⟩
    · exact hne (String.append_eq_empty_iff.mp (String.append_eq_empty_iff.mp hempty).1).1
    · rw [String.length_append, String.length_append]
      have hone : ":".length = 1 := by decide
      omega
  cases part with
  | whole => exact ⟨hne, by change cell.binding.field.length ≤ 256; omega, hplain⟩
  | chunk index =>
      refine hpartName (chunkName index) ?_ (Plain.append (plain_of_all (by decide)) (plain_nat index))
      rw [chunkName, String.length_append]
      have hnat := length_nat hpart
      have hword : "chunk:".length = 6 := by decide
      omega
  | manifest => exact hpartName "manifest" (by decide) (plain_of_all (by decide))

/-- Owner and resource of a cell in the database are identifiers. -/
theorem Cell.identifiers {cell : Cell} (h : cell.InDatabase) (part : CellPart) :
    ∃ owner resource : Uuid, (cell.bindingOf part).ownerId = owner.str ∧
      (cell.bindingOf part).resourceId = resource.str := by
  cases cell with
  | document owner documentId field => cases part <;> exact ⟨owner, documentId, rfl, rfl⟩
  | frozen owner revisionId documentId field => cases part <;> exact ⟨owner, revisionId, rfl, rfl⟩
  | upload => exact h.elim

theorem valid_str (u : Uuid) : invalidPart u.str = false := by
  have hlength := u.str_length
  refine not_invalidPart (fun hempty => ?_) (by omega) (plain_str u)
  rw [hempty] at hlength
  cases hlength

/-- Domain separation.  The associated data determines the binding; two different places, cells of
the database or parts of them, never have the same; and every place in the database has some, so
nothing that is stored there is refused for its identifiers.  So a ciphertext that is moved from one
cell to another is bound to data that the other one never asks for. -/
theorem cells_apart :
    (∀ (a b : StorageBinding) (data : String), a.associatedData = .ok data →
      b.associatedData = .ok data → a = b) ∧
    (∀ (a b : Cell) (part part' : CellPart) (data : String), (a, part) ≠ (b, part') →
      (a.bindingOf part).associatedData = .ok data →
      (b.bindingOf part').associatedData ≠ .ok data) ∧
    ∀ (cell : Cell) (part : CellPart), cell.InDatabase → part.InRange →
      ∃ data, (cell.bindingOf part).associatedData = .ok data := by
  refine ⟨fun a b data => associatedData_injective, ?_, ?_⟩
  · intro a b part part' data hne ha hb
    obtain ⟨hcell, hpart⟩ := Cell.bindingOf_injective (associatedData_injective ha hb)
    exact hne (Prod.ext hcell hpart)
  · intro cell part hcell hpart
    obtain ⟨hne, hlength, hplain⟩ := CellPart.field_plain hcell hpart
    obtain ⟨owner, resource, howner, hresource⟩ := Cell.identifiers hcell part
    refine ⟨String.ofList (b64encode (utf8 (cell.bindingOf part).text)), ?_⟩
    rw [StorageBinding.associatedData, howner, hresource, valid_str, valid_str,
      not_invalidPart hne hlength hplain]
    rfl

end PortRag.Security
