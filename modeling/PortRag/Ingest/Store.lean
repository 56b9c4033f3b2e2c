import PortRag.Ingest.Types
import PortRag.Security.OwnerErasure

set_option autoImplicit false

/-!
# Database persistence for ingest results

`rag/ingest/store.py`.  The ingest job knows only the identifier of its document;
`requireDocument` finds the owner and takes the owner lock.  The three reindex methods
bring the owner with them and pass over documents that are still processing.
-/

namespace PortRag.Ingest

open PortRag.Foundation PortRag.Db PortRag.Security

/-- `_require_document`: the document, under the lock of its owner. -/
def requireDocument (db : Database) (documentId : Uuid) : Except Exc Document :=
  match db.document? documentId with
  | none => .error (.valueError ("document not found: " ++ documentId.str))
  | some document => do
      lockActiveOwner db document.userId
      pure document

theorem requireDocument_ok {db : Database} {documentId : Uuid} {document : Document}
    (h : requireDocument db documentId = .ok document) :
    db.document? documentId = some document ∧ document.userId ∉ db.erasedOwners := by
  unfold requireDocument at h
  split at h
  · cases h
  · next found hfound =>
      obtain ⟨_, hlock, h⟩ := bind_eq_ok.mp h
      cases pure_eq_ok.mp h
      exact ⟨hfound, lockActiveOwner_ok hlock⟩

/-- The document of a settled job: ready, or failed with a stored error.  `now` is what the
session's flush leaves in `updated_at`: the clock of its `onupdate`, or the old value when the
flush finds no column changed. -/
def settledDocument (document : Document) (status : DocumentStatus) (error : Option String)
    (now : Time) : Document :=
  { document with status := status, error := error, updatedAt := now }

/-- The transaction of `replace_chunks_and_mark_ready`. -/
def replaceTransaction (pd : PrivateData) (uuid4 : Nat → Uuid) (now : Time) (db : Database)
    (documentId : Uuid) (chunks : List IngestChunk) (embeddings : List Embedding) :
    Except Exc (Unit × Database) := do
  let document ← requireDocument db documentId
  let rows ← chunkRows pd uuid4 document.userId.str documentId chunks embeddings
  let db' ← (db.deleteChunks documentId).insertChunks rows
  pure ((), db'.updateDocument (settledDocument document .ready none now))

/-- `SqlAlchemyIngestStore.replace_chunks_and_mark_ready`. -/
def replaceChunksAndMarkReady (pd : PrivateData) (uuid4 : Nat → Uuid) (now : Time)
    (db : Database) (documentId : Uuid) (chunks : List IngestChunk)
    (embeddings : List Embedding) : Outcome Unit :=
  .ofTransaction db (replaceTransaction pd uuid4 now db documentId chunks embeddings)

/-- The transaction of `mark_failed`. -/
def markFailedTransaction (pd : PrivateData) (now : Time) (db : Database) (documentId : Uuid)
    (error : String) : Except Exc (Unit × Database) := do
  let document ← requireDocument db documentId
  let stored ← pd.encryptText (truncate error 4000)
    ⟨document.userId.str, documentId.str, "document:error"⟩
  pure ((), db.updateDocument (settledDocument document .failed (some stored) now))

/-- `SqlAlchemyIngestStore.mark_failed`. -/
def markFailed (pd : PrivateData) (now : Time) (db : Database) (documentId : Uuid)
    (error : String) : Outcome Unit :=
  .ofTransaction db (markFailedTransaction pd now db documentId error)

/-- The machine code of `mark_storage_unavailable`, stored as it is. -/
def storageUnavailable : String := "storage_encryption_unavailable"

/-- The transaction of `mark_storage_unavailable`. -/
def markStorageUnavailableTransaction (now : Time) (db : Database) (documentId : Uuid) :
    Except Exc (Unit × Database) := do
  let document ← requireDocument db documentId
  pure ((), db.updateDocument (settledDocument document .failed (some storageUnavailable) now))

/-- `SqlAlchemyIngestStore.mark_storage_unavailable`. -/
def markStorageUnavailable (now : Time) (db : Database) (documentId : Uuid) : Outcome Unit :=
  .ofTransaction db (markStorageUnavailableTransaction now db documentId)

/-! ## Reindexing -/

/-- The document that the reindex statements select: the owner's, and no longer processing. -/
def reindexable (db : Database) (documentId userId : Uuid) : Option Document :=
  (db.document? documentId).filter (fun d => d.userId = userId ∧ d.status ≠ .processing)

theorem reindexable_eq_some {db : Database} {documentId userId : Uuid} {d : Document}
    (h : reindexable db documentId userId = some d) :
    db.document? documentId = some d ∧ d.userId = userId ∧ d.status ≠ .processing := by
  obtain ⟨hd, hkeep⟩ := Option.filter_eq_some_iff.mp h
  simp only [decide_eq_true_eq] at hkeep
  exact ⟨hd, hkeep.1, hkeep.2⟩

/-- `SELECT … FROM chunks WHERE document_id = … ORDER BY seq`. -/
def orderedChunks (db : Database) (documentId : Uuid) : List DocumentChunk :=
  (db.chunksOf documentId).mergeSort (fun a b => a.seq ≤ b.seq)

/-- One chunk of `get_chunks_for_reindex`. -/
def readIngestChunk (pd : PrivateData) (userId documentId : Uuid) (row : DocumentChunk) :
    Except Exc IngestChunk := do
  let text ← pd.readText row.text ⟨userId.str, documentId.str, chunkTextField row.seq⟩
  let metadata ← pd.readJson row.metadata
    ⟨userId.str, documentId.str, chunkMetadataField row.seq⟩
  pure ⟨row.seq, text, metadata⟩

/-- `SqlAlchemyIngestStore.get_chunks_for_reindex`. -/
def getChunksForReindex (pd : PrivateData) (db : Database) (documentId userId : Uuid) :
    Except Exc (Option (List IngestChunk)) := do
  lockActiveOwner db userId
  match reindexable db documentId userId with
  | none => pure none
  | some _ =>
      let chunks ← (orderedChunks db documentId).mapM (readIngestChunk pd userId documentId)
      pure (some chunks)

/-- The embedding that each row gets: rows and embeddings are paired in the order of `seq`. -/
def reembedded (paired : List (DocumentChunk × Embedding)) (row : DocumentChunk) :
    DocumentChunk :=
  match paired.find? (fun p => p.1.id = row.id) with
  | some p => { row with embedding := p.2 }
  | none => row

@[simp] theorem reembedded_id (paired : List (DocumentChunk × Embedding)) (row : DocumentChunk) :
    (reembedded paired row).id = row.id := by
  unfold reembedded
  split <;> rfl

@[simp] theorem reembedded_documentId (paired : List (DocumentChunk × Embedding))
    (row : DocumentChunk) : (reembedded paired row).documentId = row.documentId := by
  unfold reembedded
  split <;> rfl

/-- New embeddings leave the chunks of other documents alone. -/
theorem reembedded_of_ne {db : Database} {documentId : Uuid} {embeddings : List Embedding} {row : DocumentChunk}
    (hrow : row ∈ db.chunks.rows) (hne : row.documentId ≠ documentId) :
    reembedded ((orderedChunks db documentId).zip embeddings) row = row := by
  unfold reembedded
  split
  · next p hp =>
      have hmem := List.mem_of_find?_eq_some hp
      have hid := List.find?_some hp
      rw [decide_eq_true_eq] at hid
      have hchunk : p.1 ∈ orderedChunks db documentId := (List.of_mem_zip hmem).1
      obtain ⟨hp', hdoc⟩ := Database.mem_chunksOf.mp ((List.mem_mergeSort).mp hchunk)
      have hsame : p.1 = row := Table.eq_of_key hp' hrow hid
      exact absurd (hsame ▸ hdoc) hne
  · rfl

/-- The transaction of `replace_embeddings_and_mark_ready`. -/
def replaceEmbeddingsTransaction (now : Time) (db : Database) (documentId userId : Uuid)
    (embeddings : List Embedding) : Except Exc (Bool × Database) := do
  lockActiveOwner db userId
  match reindexable db documentId userId with
  | none => pure (false, db)
  | some document =>
      let chunks := orderedChunks db documentId
      if chunks.length ≠ embeddings.length then
        .error (.valueError ("document has " ++ toString chunks.length ++
          " chunks but received " ++ toString embeddings.length ++ " embeddings"))
      else
        let db' := db.rewriteChunks (reembedded (chunks.zip embeddings)) (reembedded_id _)
          (reembedded_documentId _)
        pure (true, db'.updateDocument (settledDocument document .ready none now))

/-- `SqlAlchemyIngestStore.replace_embeddings_and_mark_ready`. -/
def replaceEmbeddingsAndMarkReady (now : Time) (db : Database) (documentId userId : Uuid)
    (embeddings : List Embedding) : Outcome Bool :=
  .ofTransaction db (replaceEmbeddingsTransaction now db documentId userId embeddings)

/-- The transaction of `mark_reindex_failed`. -/
def markReindexFailedTransaction (pd : PrivateData) (now : Time) (db : Database)
    (documentId userId : Uuid) (error : String) : Except Exc (Bool × Database) := do
  lockActiveOwner db userId
  match reindexable db documentId userId with
  | none => pure (false, db)
  | some document =>
      let stored ← pd.encryptText (truncate error 4000)
        ⟨document.userId.str, documentId.str, "document:error"⟩
      pure (true, db.updateDocument (settledDocument document .failed (some stored) now))

/-- `SqlAlchemyIngestStore.mark_reindex_failed`. -/
def markReindexFailed (pd : PrivateData) (now : Time) (db : Database) (documentId userId : Uuid)
    (error : String) : Outcome Bool :=
  .ofTransaction db (markReindexFailedTransaction pd now db documentId userId error)

end PortRag.Ingest
