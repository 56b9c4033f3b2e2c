import PortRag.Webpages.Repository
import PortRag.Ingest.Store
import PortRag.Search.Repository

set_option autoImplicit false

/-!
# The calls of the service

Everything that stores or reads private data, as one type of writing calls and one of reading
calls.  A writing call is one transaction; `exec` takes the helpers through which it
encrypts and decrypts, so that the same call runs on a store in the clear.
-/

namespace PortRag.Service

open PortRag.Db PortRag.Security PortRag.Http PortRag.Ingest PortRag.Webpages PortRag.Knowledge
  PortRag.Search

/-! ## Writing calls -/

/-- The writing methods of the repositories and of the ingest store; `claimWebpage` is one
turn of the loop of `claim`. -/
inductive ServiceCall where
  | createDocument (documentId : Uuid) (now : Time) (userId : Uuid)
      (knowledgeKey name mime : String)
  | createWebpage (lib : UrlFunctions) (documentId : Uuid) (now : Time) (userId : Uuid)
      (knowledgeKey : String) (name : Option String) (urls : List String) (autoSync : Bool)
  | enqueue (now : Time) (documentId userId : Uuid)
  | setAutoSync (now : Time) (documentId userId : Uuid) (autoSync : Bool)
  | claimWebpage (token : Uuid) (now : Time) (documentId owner : Uuid)
  | finish (uuid4 : Nat → Uuid) (now : Time) (claim : WebpageClaim) (content contentHash : String)
      (chunks : Option (List IngestChunk)) (embeddings : Option (List Embedding))
  | fail (now : Time) (claim : WebpageClaim) (error : String)
  | replaceChunks (uuid4 : Nat → Uuid) (now : Time) (documentId : Uuid)
      (chunks : List IngestChunk) (embeddings : List Embedding)
  | markFailed (now : Time) (documentId : Uuid) (error : String)
  | markStorageUnavailable (now : Time) (documentId : Uuid)
  | replaceEmbeddings (now : Time) (documentId userId : Uuid) (embeddings : List Embedding)
  | markReindexFailed (now : Time) (documentId userId : Uuid) (error : String)
  | createRevision (uuid4 : Nat → Uuid) (revisionId : Uuid) (now : Time) (userId : Uuid)
      (selected : Option (List Uuid))
  | deleteDocument (documentId userId : Uuid)

/-- What a writing call returns. -/
inductive ServiceValue where
  | record (value : DocumentRecord)
  | detail (value : Option WebpageDetail)
  | claim (value : Option WebpageClaim)
  | revision (value : KnowledgeRevisionRecord)
  | flag (value : Bool)
  | unit

/-- A call's outcome with its result wrapped. -/
def mapOutcome {α β : Type} (f : α → β) (o : Outcome α) : Outcome β := ⟨o.result.map f, o.db⟩

@[simp] theorem mapOutcome_db {α β : Type} (f : α → β) (o : Outcome α) :
    (mapOutcome f o).db = o.db := rfl

@[simp] theorem mapOutcome_result {α β : Type} (f : α → β) (o : Outcome α) :
    (mapOutcome f o).result = o.result.map f := rfl

/-- The call on a database. -/
def ServiceCall.exec (pd : PrivateData) : ServiceCall → Database → Outcome ServiceValue
  | .createDocument documentId now userId knowledgeKey name mime, db =>
      mapOutcome .record
        (createProcessingDocument pd documentId now db userId knowledgeKey name mime)
  | .createWebpage lib documentId now userId knowledgeKey name urls autoSync, db =>
      mapOutcome .record
        (Webpages.create pd lib documentId now db userId knowledgeKey name urls autoSync)
  | .enqueue now documentId userId, db =>
      mapOutcome .detail (Webpages.enqueue pd now db documentId userId)
  | .setAutoSync now documentId userId autoSync, db =>
      mapOutcome .detail (Webpages.setAutoSync pd now db documentId userId autoSync)
  | .claimWebpage token now documentId owner, db =>
      mapOutcome .claim (claimCandidate pd token now db documentId owner)
  | .finish uuid4 now claim content contentHash chunks embeddings, db =>
      mapOutcome .flag (Webpages.finish pd uuid4 now db claim content contentHash chunks embeddings)
  | .fail now claim error, db => mapOutcome .flag (Webpages.fail pd now db claim error)
  | .replaceChunks uuid4 now documentId chunks embeddings, db =>
      mapOutcome (fun _ => .unit)
        (replaceChunksAndMarkReady pd uuid4 now db documentId chunks embeddings)
  | .markFailed now documentId error, db =>
      mapOutcome (fun _ => .unit) (Ingest.markFailed pd now db documentId error)
  | .markStorageUnavailable now documentId, db =>
      mapOutcome (fun _ => .unit) (Ingest.markStorageUnavailable now db documentId)
  | .replaceEmbeddings now documentId userId embeddings, db =>
      mapOutcome .flag (replaceEmbeddingsAndMarkReady now db documentId userId embeddings)
  | .markReindexFailed now documentId userId error, db =>
      mapOutcome .flag (Ingest.markReindexFailed pd now db documentId userId error)
  | .createRevision uuid4 revisionId now userId selected, db =>
      mapOutcome .revision (Knowledge.create pd uuid4 revisionId now db userId selected)
  | .deleteDocument documentId userId, db =>
      mapOutcome .flag (Http.deleteDocument db documentId userId)

/-- The chunks that a call brings. -/
def ServiceCall.chunks : ServiceCall → List IngestChunk
  | .finish _ _ _ _ _ chunks _ => chunks.getD []
  | .replaceChunks _ _ _ chunks _ => chunks
  | _ => []

/-! ## Reading calls -/

/-- The reading methods. -/
inductive ServiceRead where
  | listDocuments (userId : Uuid)
  | getDocument (documentId userId : Uuid)
  | getWebpage (documentId userId : Uuid)
  | getChunks (documentId userId : Uuid) (offset limit : Nat)
  | getChunksForReindex (documentId userId : Uuid)
  | search (lib : SearchFunctions) (userId : Uuid) (query : Embedding) (topK : Nat)
  | searchRevision (lib : SearchFunctions) (userId revisionId : Uuid) (query : Embedding)
      (topK : Nat)
  | getRevision (revisionId userId : Uuid)
  | listRevisions (userId : Uuid)

/-- What a reading call returns. -/
inductive ReadValue where
  | records (value : List DocumentRecord)
  | record (value : Option DocumentRecord)
  | webpage (value : Option WebpageDetail)
  | preview (value : Option WebpageChunks)
  | chunks (value : Option (List IngestChunk))
  | hits (value : List SearchHit)
  | revision (value : Option KnowledgeRevisionRecord)
  | revisions (value : List KnowledgeRevisionRecord)

/-- The call on a database. -/
def ServiceRead.exec (pd : PrivateData) : ServiceRead → Database → Except Exc ReadValue
  | .listDocuments userId, db => (Http.listDocuments pd db userId).map .records
  | .getDocument documentId userId, db => (Http.getDocument pd db documentId userId).map .record
  | .getWebpage documentId userId, db => (Webpages.get pd db documentId userId).map .webpage
  | .getChunks documentId userId offset limit, db =>
      (Webpages.getChunks pd db documentId userId offset limit).map .preview
  | .getChunksForReindex documentId userId, db =>
      (Ingest.getChunksForReindex pd db documentId userId).map .chunks
  | .search lib userId query topK, db => (Search.search lib pd db userId query topK).map .hits
  | .searchRevision lib userId revisionId query topK, db =>
      (Search.searchRevision lib pd db userId revisionId query topK).map .hits
  | .getRevision revisionId userId, db => (Knowledge.get db revisionId userId).map .revision
  | .listRevisions userId, db => (Knowledge.list db userId).map .revisions

/-- The owner on whose behalf a call reads. -/
def ServiceRead.owner : ServiceRead → Uuid
  | .listDocuments userId => userId
  | .getDocument _ userId => userId
  | .getWebpage _ userId => userId
  | .getChunks _ userId _ _ => userId
  | .getChunksForReindex _ userId => userId
  | .search _ userId _ _ => userId
  | .searchRevision _ userId _ _ _ => userId
  | .getRevision _ userId => userId
  | .listRevisions userId => userId

end PortRag.Service
