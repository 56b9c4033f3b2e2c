import PortRag.Ingest.Types
import PortRag.Security.OwnerErasure

set_option autoImplicit false

/-!
# Knowledge revisions

`rag/knowledge/revisions.py`.  `create` reads the chunks of the selected ready documents in
one joined query, freezes those of file documents under bindings of the revision, and
records the webpage documents by their identifier only.
-/

namespace PortRag.Knowledge

open PortRag.Foundation PortRag.Db PortRag.Security PortRag.Ingest

/-- `KnowledgeRevisionRecord`. -/
structure KnowledgeRevisionRecord where
  id : Uuid
  userId : Uuid
  chunkCount : Nat
  createdAt : Time
  liveWebpageIds : List Uuid
  deriving DecidableEq, Inhabited

/-- A row of the joined query of `create`. -/
structure SourceRow where
  documentId : Uuid
  documentName : String
  webpageDocumentId : Option Uuid
  seq : Int
  text : String
  metadata : Json
  embedding : Embedding
  deriving Inhabited

/-- The documents that `create` may select: the owner's ready ones, among `selected` when
documents are given. -/
def selectable (userId : Uuid) (selected : Option (List Uuid)) (document : Document) : Bool :=
  document.userId = userId && document.status = .ready && selected.all (document.id ∈ ·)

/-- A document joined with one of its chunks and its webpage row, if it has one. -/
def sourceRow (db : Database) (document : Document) (chunk : DocumentChunk) : SourceRow where
  documentId := document.id
  documentName := document.name
  webpageDocumentId := (db.webpage? document.id).map (·.documentId)
  seq := chunk.seq
  text := chunk.text
  metadata := chunk.metadata
  embedding := chunk.embedding

/-- `ORDER BY documents.id, chunks.seq`. -/
def sourceOrder (a b : SourceRow) : Bool :=
  a.documentId < b.documentId || (a.documentId = b.documentId && a.seq ≤ b.seq)

/-- The joined rows of the selectable documents. -/
def joinedRows (db : Database) (userId : Uuid) (selected : Option (List Uuid)) :
    List SourceRow :=
  (db.documents.rows.filter (selectable userId selected)).flatMap
    (fun d => (db.chunksOf d.id).map (sourceRow db d))

/-- The rows of the query of `create`. -/
def sourceRows (db : Database) (userId : Uuid) (selected : Option (List Uuid)) :
    List SourceRow :=
  (joinedRows db userId selected).mergeSort sourceOrder

/-- Whether every selected document contributed a row. -/
def allFound (selected : Option (List Uuid)) (rows : List SourceRow) : Bool :=
  selected.all (fun ids => ids.all (fun id => rows.any (fun r => r.documentId = id)))

/-- `f"document:{document_id}:name"`. -/
def frozenNameField (documentId : Uuid) : String := "document:" ++ documentId.str ++ ":name"

/-- `f"document:{document_id}:chunk:{seq}:text"`. -/
def frozenTextField (documentId : Uuid) (seq : Int) : String :=
  "document:" ++ documentId.str ++ ":chunk:" ++ toString seq ++ ":text"

/-- `f"document:{document_id}:chunk:{seq}:metadata"`. -/
def frozenMetadataField (documentId : Uuid) (seq : Int) : String :=
  "document:" ++ documentId.str ++ ":chunk:" ++ toString seq ++ ":metadata"

/-- One frozen chunk: read under the bindings of its document, written under those of the
revision. -/
def frozenRow (pd : PrivateData) (userId revisionId rowId : Uuid) (row : SourceRow) :
    Except Exc KnowledgeRevisionChunk := do
  let plainName ← pd.readText row.documentName
    ⟨userId.str, row.documentId.str, "document:name"⟩
  let name ← pd.encryptText plainName
    ⟨userId.str, revisionId.str, frozenNameField row.documentId⟩
  let plainText ← pd.readText row.text
    ⟨userId.str, row.documentId.str, chunkTextField row.seq⟩
  let text ← pd.encryptText plainText
    ⟨userId.str, revisionId.str, frozenTextField row.documentId row.seq⟩
  let plainMetadata ← pd.readJson row.metadata
    ⟨userId.str, row.documentId.str, chunkMetadataField row.seq⟩
  let metadata ← pd.encryptJson plainMetadata
    ⟨userId.str, revisionId.str, frozenMetadataField row.documentId row.seq⟩
  pure {
    id := rowId
    revisionId := revisionId
    sourceDocumentId := row.documentId
    documentName := name
    seq := row.seq
    text := text
    metadata := metadata
    embedding := row.embedding }

/-- The rows to freeze: those without a webpage. -/
def fileRows (rows : List SourceRow) : List SourceRow :=
  rows.filter (fun r => r.webpageDocumentId = none)

/-- The webpage documents among the rows, each once, in order. -/
def liveIds (rows : List SourceRow) : List Uuid :=
  ((rows.filter (fun r => r.webpageDocumentId ≠ none)).map (·.documentId)).eraseDups

/-- The transaction of `create`; `selected` is the set of `document_ids`, and `revisionId` the
given or the fresh identifier. -/
def createTransaction (pd : PrivateData) (uuid4 : Nat → Uuid) (revisionId : Uuid) (now : Time)
    (db : Database) (userId : Uuid) (selected : Option (List Uuid)) :
    Except Exc (KnowledgeRevisionRecord × Database) := do
  lockActiveOwner db userId
  let rows := sourceRows db userId selected
  if ¬ allFound selected rows then
    .error (.knowledgeRevisionNotFound
      "selected document is missing, assigned to another user, or not ready")
  else
    let withRevision ← db.insertRevision ⟨revisionId, userId, now⟩
    let frozen ← (fileRows rows).zipIdx.mapM
      (fun z => frozenRow pd userId revisionId (uuid4 z.2) z.1)
    let live := liveIds rows
    let withChunks ← withRevision.insertRevisionChunks frozen
    let withMembers ← withChunks.insertRevisionWebpages
      (live.map (fun id => ⟨revisionId, id⟩))
    pure ({
      id := revisionId
      userId := userId
      chunkCount := rows.length
      createdAt := now
      liveWebpageIds := live }, withMembers)

/-- `KnowledgeRevisionRepository.create`. -/
def create (pd : PrivateData) (uuid4 : Nat → Uuid) (revisionId : Uuid) (now : Time)
    (db : Database) (userId : Uuid) (selected : Option (List Uuid)) :
    Outcome KnowledgeRevisionRecord :=
  .ofTransaction db (createTransaction pd uuid4 revisionId now db userId selected)

/-- What an accepted creation did. -/
theorem createTransaction_ok {pd : PrivateData} {uuid4 : Nat → Uuid} {revisionId userId : Uuid}
    {now : Time} {selected : Option (List Uuid)} {db db' : Database}
    {record : KnowledgeRevisionRecord}
    (h : createTransaction pd uuid4 revisionId now db userId selected = .ok (record, db')) :
    ∃ frozen withRevision withChunks, userId ∉ db.erasedOwners ∧
      db.insertRevision ⟨revisionId, userId, now⟩ = .ok withRevision ∧
      (fileRows (sourceRows db userId selected)).zipIdx.mapM
        (fun z => frozenRow pd userId revisionId (uuid4 z.2) z.1) = .ok frozen ∧
      withRevision.insertRevisionChunks frozen = .ok withChunks ∧
      withChunks.insertRevisionWebpages ((liveIds (sourceRows db userId selected)).map
        (fun id => ⟨revisionId, id⟩)) = .ok db' ∧
      record = ⟨revisionId, userId, (sourceRows db userId selected).length, now,
        liveIds (sourceRows db userId selected)⟩ := by
  obtain ⟨_, hlock, h⟩ := bind_eq_ok.mp h
  dsimp only at h
  split at h
  · cases h
  · obtain ⟨withRevision, hrevision, h⟩ := bind_eq_ok.mp h
    obtain ⟨frozen, hfrozen, h⟩ := bind_eq_ok.mp h
    obtain ⟨withChunks, hchunks, h⟩ := bind_eq_ok.mp h
    obtain ⟨_, hmembers, h⟩ := bind_eq_ok.mp h
    cases pure_eq_ok.mp h
    exact ⟨frozen, withRevision, withChunks, lockActiveOwner_ok hlock, hrevision, hfrozen, hchunks,
      hmembers, rfl⟩

/-! ## Summaries -/

/-- The chunks of a member of a revision that `_summary` counts: those of a ready webpage
document of the revision's owner. -/
def memberChunks (db : Database) (owner : Uuid) (member : KnowledgeRevisionWebpage) :
    List DocumentChunk :=
  match db.document? member.documentId, db.webpage? member.documentId with
  | some document, some _ =>
      if document.userId = owner ∧ document.status = .ready then db.chunksOf document.id else []
  | _, _ => []

/-- `_summary` and `_record` of one revision: its counts are made anew at every call. -/
def summary (db : Database) (revision : KnowledgeRevision) : KnowledgeRevisionRecord where
  id := revision.id
  userId := revision.userId
  chunkCount := (db.frozenOf revision.id).length +
    ((db.membersOf revision.id).flatMap (memberChunks db revision.userId)).length
  createdAt := revision.createdAt
  liveWebpageIds := ((db.membersOf revision.id).map (·.documentId)).mergeSort (· ≤ ·)

/-- `KnowledgeRevisionRepository.get`. -/
def get (db : Database) (revisionId userId : Uuid) :
    Except Exc (Option KnowledgeRevisionRecord) := do
  lockActiveOwner db userId
  pure (((db.revisions.find? revisionId).filter (fun r => r.userId = userId)).map (summary db))

/-- Newest first; revisions of one moment by descending identifier. -/
def listedBefore (a b : KnowledgeRevision) : Bool :=
  b.createdAt < a.createdAt || (a.createdAt = b.createdAt && b.id ≤ a.id)

/-- `KnowledgeRevisionRepository.list`. -/
def list (db : Database) (userId : Uuid) : Except Exc (List KnowledgeRevisionRecord) := do
  lockActiveOwner db userId
  pure (((db.revisions.rows.filter (fun r => r.userId = userId)).mergeSort listedBefore).map
    (summary db))

end PortRag.Knowledge
