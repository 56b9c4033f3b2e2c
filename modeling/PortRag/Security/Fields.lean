import PortRag.Http.Documents
import PortRag.Ingest.Types
import PortRag.Knowledge.Revisions
import PortRag.Security.OpenBao

set_option autoImplicit false

/-!
# Field names

The fields under which the service encrypts, and how the parts of a large value are kept
apart from them: the name of a part is told from its last component.
-/

namespace PortRag.Security

open PortRag.Foundation PortRag.Http PortRag.Ingest PortRag.Knowledge

/-- The fields under which the service encrypts a value. -/
inductive BaseField where
  | documentName
  | documentError
  | webpageContent
  | webpageError
  | webpageUrl (index : Nat)
  | chunkText (seq : Int)
  | chunkMetadata (seq : Int)
  | frozenName (documentId : Uuid)
  | frozenText (documentId : Uuid) (seq : Int)
  | frozenMetadata (documentId : Uuid) (seq : Int)
  | uploadChunk (index : Nat)
  | uploadManifest

/-- The text of a field, as the code puts it together. -/
def BaseField.text : BaseField → String
  | .documentName => "document:name"
  | .documentError => "document:error"
  | .webpageContent => "webpage:content"
  | .webpageError => "webpage:error"
  | .webpageUrl index => urlField index
  | .chunkText seq => chunkTextField seq
  | .chunkMetadata seq => chunkMetadataField seq
  | .frozenName documentId => frozenNameField documentId
  | .frozenText documentId seq => frozenTextField documentId seq
  | .frozenMetadata documentId seq => frozenMetadataField documentId seq
  | .uploadChunk index => "upload:chunk:" ++ toString index
  | .uploadManifest => "upload:manifest"

/-- A field under which values are encrypted: a base field, or that of the manifest of a value
under such a field. -/
inductive ValueField : String → Prop
  | base (field : BaseField) : ValueField field.text
  | manifest {field : String} (h : ValueField field) : ValueField (field ++ ":" ++ "manifest")

/-! ## Components -/

/-- What stands before and after the last colon. -/
theorem append_colon_inj {x y t u : List Char} (ht : ':' ∉ t) (hu : ':' ∉ u)
    (h : x ++ ':' :: t = y ++ ':' :: u) : x = y ∧ t = u := by
  rcases List.append_eq_append_iff.mp h with ⟨w, hy, ht'⟩ | ⟨w, hx, hu'⟩
  · cases w with
    | nil =>
        rw [List.append_nil] at hy
        exact ⟨hy.symm, (List.cons.inj ht').2⟩
    | cons c w =>
        have htail : t = w ++ ':' :: u := (List.cons.inj ht').2
        exact absurd (by rw [htail]; simp) ht
  · cases w with
    | nil =>
        rw [List.append_nil] at hx
        exact ⟨hx, (List.cons.inj hu').2.symm⟩
    | cons c w =>
        have htail : u = w ++ ':' :: t := (List.cons.inj hu').2
        exact absurd (by rw [htail]; simp) hu

/-- The last component of a field. -/
structure EndsWith (field start last : String) : Prop where
  eq : field.toList = start.toList ++ ':' :: last.toList
  single : ':' ∉ last.toList

theorem EndsWith.unique {field start last start' last' : String} (h : EndsWith field start last)
    (h' : EndsWith field start' last') : start = start' ∧ last = last' := by
  obtain ⟨hstart, hlast⟩ := append_colon_inj h.single h'.single (h.eq.symm.trans h'.eq)
  exact ⟨String.ext hstart, String.ext hlast⟩

/-- Decimal digits. -/
theorem toString_digits (n : Nat) : ∀ c ∈ (toString n).toList, c.isDigit = true := by
  intro c hc
  have hdigits : (toString n).toList = Nat.toDigits 10 n := by
    simp [toString, Nat.repr]
  rw [hdigits] at hc
  exact Nat.isDigit_of_mem_toDigits (by decide) (by decide) hc

theorem colon_not_mem_digits (n : Nat) : ':' ∉ (toString n).toList := by
  intro h
  exact absurd (toString_digits n ':' h) (by decide)

/-- A component without digits is no number. -/
theorem ne_toString {last : String} {c : Char} (hmem : c ∈ last.toList) (hc : c.isDigit = false)
    (n : Nat) : last ≠ toString n := by
  intro h
  rw [h] at hmem
  rw [toString_digits n c hmem] at hc
  cases hc

theorem endsWith_manifest (field : String) :
    EndsWith (field ++ ":" ++ "manifest") field "manifest" := by
  constructor
  · rw [String.toList_append, String.toList_append, List.append_assoc]
    rfl
  · decide

theorem endsWith_chunk (field : String) (index : Nat) :
    EndsWith (field ++ ":" ++ chunkName index) (field ++ ":chunk") (toString index) := by
  constructor
  · have hchunk : "chunk:".toList = "chunk".toList ++ [':'] := by decide
    have hcolon : ":chunk".toList = ':' :: "chunk".toList := by decide
    have hone : ":".toList = [':'] := by decide
    simp only [chunkName, String.toList_append, hchunk, hcolon, hone, List.append_assoc,
      List.cons_append, List.nil_append]
  · exact colon_not_mem_digits index

theorem endsWith_append (start : String) {last : String} (h : ':' ∉ last.toList) :
    EndsWith (start ++ ":" ++ last) start last := by
  refine ⟨?_, h⟩
  rw [String.toList_append, String.toList_append, List.append_assoc]
  rfl

/-! ## The fields of the service -/

/-- A field with its last component after the colon. -/
theorem endsWith_of_eq {field start last suffix : String} (h : ':' ∉ last.toList)
    (hsuffix : suffix = ":" ++ last) (hfield : field = start ++ suffix) :
    EndsWith field start last := by
  rw [hfield, hsuffix, ← String.append_assoc]
  exact endsWith_append start h

/-- A base field ends with `manifest` or a number only where the service says so. -/
theorem BaseField.endsWith (g : BaseField) : ∃ start last, EndsWith g.text start last ∧
    (last = "manifest" → start = "upload") := by
  cases g with
  | documentName => exact ⟨"document", "name", ⟨by decide, by decide⟩, by decide⟩
  | documentError => exact ⟨"document", "error", ⟨by decide, by decide⟩, by decide⟩
  | webpageContent => exact ⟨"webpage", "content", ⟨by decide, by decide⟩, by decide⟩
  | webpageError => exact ⟨"webpage", "error", ⟨by decide, by decide⟩, by decide⟩
  | webpageUrl index =>
      refine ⟨"webpage:url", toString index, endsWith_of_eq (colon_not_mem_digits index) rfl ?_, ?_⟩
      · change "webpage:url:" ++ toString index = "webpage:url" ++ (":" ++ toString index)
        rw [← String.append_assoc]
        rfl
      · intro h
        exact absurd h.symm (ne_toString (c := 'm') (by decide) (by decide) index)
  | chunkText seq =>
      exact ⟨_, "text", endsWith_of_eq (by decide) rfl rfl, fun h => absurd h (by decide)⟩
  | chunkMetadata seq =>
      exact ⟨_, "metadata", endsWith_of_eq (by decide) rfl rfl, fun h => absurd h (by decide)⟩
  | frozenName documentId =>
      exact ⟨_, "name", endsWith_of_eq (by decide) rfl rfl, fun h => absurd h (by decide)⟩
  | frozenText documentId seq =>
      exact ⟨_, "text", endsWith_of_eq (by decide) rfl rfl, fun h => absurd h (by decide)⟩
  | frozenMetadata documentId seq =>
      exact ⟨_, "metadata", endsWith_of_eq (by decide) rfl rfl, fun h => absurd h (by decide)⟩
  | uploadChunk index =>
      refine ⟨"upload:chunk", toString index, endsWith_of_eq (colon_not_mem_digits index) rfl ?_, ?_⟩
      · change "upload:chunk:" ++ toString index = "upload:chunk" ++ (":" ++ toString index)
        rw [← String.append_assoc]
        rfl
      · intro h
        exact absurd h.symm (ne_toString (c := 'm') (by decide) (by decide) index)
  | uploadManifest => exact ⟨"upload", "manifest", ⟨by decide, by decide⟩, by decide⟩

/-- Of all manifest fields only that of `upload` is a base field. -/
theorem eq_upload_of_base {field : String} {g : BaseField} (h : field ++ ":" ++ "manifest" = g.text) :
    field = "upload" := by
  obtain ⟨start, last, hends, hlast⟩ := g.endsWith
  rw [← h] at hends
  obtain ⟨hstart, hname⟩ := (endsWith_manifest field).unique hends
  rw [hstart]
  exact hlast hname.symm

/-- No field of a value is without a colon. -/
theorem ValueField.ne_upload {field : String} (h : ValueField field) : field ≠ "upload" := by
  have hends : ∃ start last, EndsWith field start last := by
    cases h with
    | base g =>
        obtain ⟨start, last, hends, -⟩ := g.endsWith
        exact ⟨start, last, hends⟩
    | manifest => exact ⟨_, _, endsWith_manifest _⟩
  obtain ⟨start, last, hends⟩ := hends
  intro hupload
  have hcolon : ':' ∈ field.toList := by
    rw [hends.eq]
    simp
  rw [hupload] at hcolon
  exact absurd hcolon (by decide)

/-- The name of a manifest is not that of a chunk. -/
theorem manifest_ne_chunk (field other : String) (index : Nat) :
    field ++ ":" ++ "manifest" ≠ other ++ ":" ++ chunkName index := by
  intro h
  have hends := endsWith_chunk other index
  rw [← h] at hends
  obtain ⟨-, hlast⟩ := (endsWith_manifest field).unique hends
  exact absurd hlast (ne_toString (c := 'm') (by decide) (by decide) index)

theorem manifest_ne_upload (field : String) : field ++ ":" ++ "manifest" ≠ "upload" := by
  intro h
  have hcolon : ':' ∈ (field ++ ":" ++ "manifest").toList := by
    rw [(endsWith_manifest field).eq]
    simp
  rw [h] at hcolon
  exact absurd hcolon (by decide)

/-! ## Associated data -/

theorem utf8_injective : Function.Injective utf8 := by
  intro a b h
  apply String.toByteArray_inj.mp
  exact ByteArray.ext (Array.toList_inj.mp h)

theorem text_injective : Function.Injective StorageBinding.text := by
  intro a b h
  have hstart : ∀ s : List Char, ∃ first rest, quote s = first :: rest ∧ first ≠ ']' :=
    fun s => ⟨'"', _, rfl, by decide⟩
  have hlists := (listText_selfDelimiting quote_selfDelimiting hstart).injective
    (String.ofList_injective h)
  simp only [List.cons.injEq, and_true, true_and] at hlists
  obtain ⟨howner, hresource, hfield⟩ := hlists
  cases a
  cases b
  simp only [StorageBinding.mk.injEq]
  exact ⟨String.ext howner, String.ext hresource, String.ext hfield⟩

/-- The associated data determines the binding. -/
theorem associatedData_injective {a b : StorageBinding} {data : String}
    (ha : a.associatedData = .ok data) (hb : b.associatedData = .ok data) : a = b := by
  unfold StorageBinding.associatedData at ha hb
  split at ha
  · cases ha
  · split at hb
    · cases hb
    · have hdata := (Except.ok.inj ha).trans (Except.ok.inj hb).symm
      exact text_injective (utf8_injective (b64encode_injective (String.ofList_injective hdata)))

end PortRag.Security
