import PortRag.Service.Reads

set_option autoImplicit false

/-!
# The reading methods

Each reading method on a sealed database imitates itself on the plaintext, and on the
plaintext it returns a value for every owner that is not fenced.
-/

namespace PortRag.Service

open PortRag.Foundation PortRag.Db PortRag.Security PortRag.Http PortRag.Ingest PortRag.Webpages
  PortRag.Knowledge PortRag.Search

variable {opens : Opens} {cipher : PrivateDataCipher} {db : Database}

/-- The joined rows of a webpage document in the clear. -/
theorem select_plaintext (db : Database) (documentId userId : Uuid) :
    select (db.plaintext opens) documentId userId =
      (select db documentId userId).map
        (fun rows => (rows.1.reveal opens, rows.2.reveal opens userId.str)) := by
  unfold select
  rw [Database.document?_plaintext, Database.webpage?_plaintext]
  cases hd : db.document? documentId with
  | none => rfl
  | some d =>
      cases db.webpage? documentId with
      | none => rfl
      | some p =>
          dsimp only [Option.map_some]
          by_cases howner : d.userId = userId
          · have howner' : (d.reveal opens).userId = userId := howner
            rw [if_pos howner, if_pos howner', Database.documentOwner_of hd, howner]
            rfl
          · have howner' : (d.reveal opens).userId ≠ userId := howner
            rw [if_neg howner, if_neg howner']
            rfl

/-- What the joined rows of a sealed database satisfy. -/
theorem sealed_select (h : db.Sealed opens) {documentId userId : Uuid} {d : Document}
    {p : DocumentWebpage} (hs : select db documentId userId = some (d, p)) :
    db.document? documentId = some d ∧ db.webpage? documentId = some p ∧ d.userId = userId ∧
      d.Sealed opens ∧ p.Sealed opens userId.str := by
  unfold select at hs
  split at hs
  · next d' p' hd hp =>
      split at hs
      · next howner =>
          cases hs
          have hpage := h.webpage hp
          rw [Database.documentOwner_of hd, howner] at hpage
          exact ⟨hd, hp, howner, h.document hd, hpage⟩
      · cases hs
  · cases hs

/-- The chunks of a document of this owner in the clear, in any order by `seq`. -/
theorem map_chunksOf {d : Document} (hd : db.document? d.id = some d) (le : Int → Int → Bool) :
    ((db.plaintext opens).chunksOf d.id).mergeSort (fun a b => le a.seq b.seq) =
      ((db.chunksOf d.id).mergeSort (fun a b => le a.seq b.seq)).map
        (fun c => c.reveal opens d.userId.str) := by
  rw [Database.chunksOf_plaintext, Database.documentOwner_of hd]
  refine (List.map_mergeSort ?_).symm
  exact fun a _ b _ => rfl

/-- A chunk of a document of a sealed database is sealed for its owner. -/
theorem sealed_chunk (h : db.Sealed opens) {d : Document} (hd : db.document? d.id = some d)
    {c : DocumentChunk} (hc : c ∈ db.chunksOf d.id) :
    c.Sealed opens d.userId.str ∧ c.documentId = d.id := by
  have hsealed := h.chunk hc
  rw [Database.documentOwner_of hd] at hsealed
  exact ⟨hsealed, (Database.mem_chunksOf.mp hc).2⟩

theorem reindexable_plaintext (db : Database) (documentId userId : Uuid) :
    reindexable (db.plaintext opens) documentId userId =
      (reindexable db documentId userId).map (Document.reveal opens) := by
  unfold reindexable
  rw [Database.document?_plaintext]
  cases db.document? documentId with
  | none => rfl
  | some d =>
      have hsame : decide ((d.reveal opens).userId = userId ∧ (d.reveal opens).status ≠ .processing) =
          decide (d.userId = userId ∧ d.status ≠ .processing) := rfl
      rw [Option.map_some, Option.filter_some, Option.filter_some, hsame]
      split <;> rfl

end PortRag.Service
