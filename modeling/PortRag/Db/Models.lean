import PortRag.Basic
import PortRag.Foundation.Table

set_option autoImplicit false

/-!
# Database rows

The tables of `rag/db/models.py`, column for column.  `user_id` columns hold the UUID
itself; the string form that the code passes around is `Uuid.str` of it.
-/

namespace PortRag.Db

/-- `DocumentStatus`. -/
inductive DocumentStatus where
  | processing
  | ready
  | failed
  deriving DecidableEq, Inhabited

/-- A row of `documents`: a file or a webpage document of an owner. -/
structure Document where
  id : Uuid
  userId : Uuid
  knowledgeKey : String
  name : String
  mime : String
  status : DocumentStatus
  error : Option String
  createdAt : Time
  updatedAt : Time
  deriving DecidableEq, Inhabited

/-- A row of `chunks`: a piece of a document, with its number and its embedding. -/
structure DocumentChunk where
  id : Uuid
  documentId : Uuid
  seq : Int
  text : String
  metadata : Json
  embedding : Embedding
  deriving Inhabited

/-- A row of `knowledge_revisions`. -/
structure KnowledgeRevision where
  id : Uuid
  userId : Uuid
  createdAt : Time
  deriving DecidableEq, Inhabited

/-- A row of `knowledge_revision_chunks`: a chunk of a file document, frozen in a revision. -/
structure KnowledgeRevisionChunk where
  id : Uuid
  revisionId : Uuid
  sourceDocumentId : Uuid
  documentName : String
  seq : Int
  text : String
  metadata : Json
  embedding : Embedding
  deriving Inhabited

/-- `SyncStatus`: where the sync of a webpage document stands. -/
inductive SyncStatus where
  | idle
  | queued
  | running
  | failed
  deriving DecidableEq, Inhabited

/-- `QueueReason`: what put a sync into the queue. -/
inductive QueueReason where
  | initial
  | manual
  | automatic
  deriving DecidableEq, Inhabited

/-- A row of `document_webpages`: the URLs, the content and the sync of a webpage document. -/
structure DocumentWebpage where
  documentId : Uuid
  urls : List String
  autoSync : Bool
  syncStatus : SyncStatus
  queueReason : QueueReason
  content : String
  contentHash : Option String
  lastSyncedAt : Option Time
  lastCheckedAt : Option Time
  nextSyncAt : Option Time
  syncError : Option String
  lastSyncChanged : Option Bool
  claimToken : Option Uuid
  claimedAt : Option Time
  deriving DecidableEq, Inhabited

/-- A row of `knowledge_revision_webpages`: a live member of a revision. -/
structure KnowledgeRevisionWebpage where
  revisionId : Uuid
  documentId : Uuid
  deriving DecidableEq, Inhabited

/-- The primary key of a membership row. -/
def KnowledgeRevisionWebpage.key (m : KnowledgeRevisionWebpage) : Uuid × Uuid :=
  (m.revisionId, m.documentId)

end PortRag.Db
