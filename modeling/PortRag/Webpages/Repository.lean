import PortRag.Http.Documents
import PortRag.Ingest.Types
import PortRag.Webpages.Urls

set_option autoImplicit false

/-!
# The webpage repository

`rag/webpages/repository.py`.  Every method is one transaction under the owner lock, except
`claim`, which first reads candidates without locks and then tries them one transaction
each (`claimCandidate`).  `now` is the clock reading of a transaction, `uuid4` its supply of
fresh identifiers.
-/

namespace PortRag.Webpages

open PortRag.Db PortRag.Security PortRag.Http PortRag.Ingest

/-- `SYNC_INTERVAL`. -/
def syncInterval : Int := hours 24

/-- `CLAIM_LEASE`. -/
def claimLease : Int := minutes 15

/-- The URL functions that registration uses: `normalize_url`, and the host name of a
normalized URL. -/
structure UrlFunctions where
  normalizeUrl : String → Except Exc String
  hostname : String → String

/-- `WebpageDetail`. -/
structure WebpageDetail where
  document : DocumentRecord
  content : String
  deriving DecidableEq, Inhabited

/-- `WebpageClaim`. -/
structure WebpageClaim where
  documentId : Uuid
  userId : Uuid
  token : Uuid
  urls : List String
  contentHash : Option String
  reason : QueueReason
  deriving DecidableEq, Inhabited

/-- `WebpageChunk`. -/
structure WebpageChunk where
  seq : Int
  text : String
  sourceUrl : Json
  deriving Inhabited

/-- `WebpageChunks`. -/
structure WebpageChunks where
  documentId : Uuid
  userId : Uuid
  chunks : List WebpageChunk
  total : Nat
  deriving Inhabited

/-- `_select`: the joined rows of one owner's webpage document. -/
def select (db : Database) (documentId userId : Uuid) : Option (Document × DocumentWebpage) :=
  match db.document? documentId, db.webpage? documentId with
  | some document, some page => if document.userId = userId then some (document, page) else none
  | _, _ => none

/-- `_detail`. -/
def detail (pd : PrivateData) (document : Document) (page : DocumentWebpage) :
    Except Exc WebpageDetail := do
  let record ← toPrivateRecord pd document (some page)
  let content ← pd.readText page.content
    ⟨document.userId.str, document.id.str, "webpage:content"⟩
  pure ⟨record, content⟩

/-- The test of `create` for a taken knowledge key: it looks for the constraint name under
`orig.__cause__` and under `orig.diag`. -/
def duplicateKeyByCause : Exc → Exc
  | .integrityError diag cause =>
      if cause = some "uq_documents_user_knowledge_key" ∨
          diag = some "uq_documents_user_knowledge_key" then .duplicateKnowledgeKey
      else .integrityError diag cause
  | e => e

/-- `name if name and name.strip() else urlsplit(normalized_urls[0]).hostname`. -/
def displayName (lib : UrlFunctions) (name : Option String) (urls : List String) : String :=
  match name with
  | some given => if strip given ≠ "" then given else lib.hostname (urls.headD "")
  | none => lib.hostname (urls.headD "")

/-- The webpage row that `create` adds. -/
def newWebpage (documentId : Uuid) (urls : List String) (content : String) (autoSync : Bool) :
    DocumentWebpage where
  documentId := documentId
  urls := urls
  autoSync := autoSync
  syncStatus := .queued
  queueReason := .initial
  content := content
  contentHash := none
  lastSyncedAt := none
  lastCheckedAt := none
  nextSyncAt := none
  syncError := none
  lastSyncChanged := none
  claimToken := none
  claimedAt := none

/-- The transaction of `create`. -/
def createTransaction (pd : PrivateData) (lib : UrlFunctions) (documentId : Uuid) (now : Time)
    (db : Database) (userId : Uuid) (knowledgeKey : String) (name : Option String)
    (urls : List String) (autoSync : Bool) : Except Exc (DocumentRecord × Database) :=
  if 1 ≤ urls.length ∧ urls.length ≤ maxUrls then do
    let normalized ← urls.mapM lib.normalizeUrl
    let normalizedUrls := normalized.eraseDups
    lockActiveOwner db userId
    let encryptedName ← pd.encryptText (displayName lib name normalizedUrls)
      ⟨userId.str, documentId.str, "document:name"⟩
    let document := processingDocument documentId userId knowledgeKey encryptedName "text/html" now
    let withDocument ← (db.insertDocument document).mapError duplicateKeyByCause
    let encryptedUrls ← normalizedUrls.zipIdx.mapM
      (fun u => pd.encryptText u.1 ⟨userId.str, documentId.str, urlField u.2⟩)
    let content ← pd.encryptText "" ⟨userId.str, documentId.str, "webpage:content"⟩
    let page := newWebpage documentId encryptedUrls content autoSync
    let withPage ← withDocument.insertWebpage page
    let record ← toPrivateRecord pd document (some page)
    pure (record, withPage)
  else .error (.webpageFetch "select between 1 and 100 webpage URLs")

/-- `WebpageRepository.create`. -/
def create (pd : PrivateData) (lib : UrlFunctions) (documentId : Uuid) (now : Time)
    (db : Database) (userId : Uuid) (knowledgeKey : String) (name : Option String)
    (urls : List String) (autoSync : Bool) : Outcome DocumentRecord :=
  .ofTransaction db
    (createTransaction pd lib documentId now db userId knowledgeKey name urls autoSync)

/-- `WebpageRepository.get`. -/
def get (pd : PrivateData) (db : Database) (documentId userId : Uuid) :
    Except Exc (Option WebpageDetail) := do
  lockActiveOwner db userId
  match select db documentId userId with
  | none => pure none
  | some (document, page) => (detail pd document page).map some

/-- `metadata.get("source_url", metadata.get("url", ""))`. -/
def sourceUrl (metadata : Json) : Except Exc Json :=
  match metadata with
  | .obj _ =>
      .ok (((metadata.get? "source_url").orElse (fun _ => metadata.get? "url")).getD (.str ""))
  | _ => .error (.other "metadata has no attribute 'get'")

/-- One row of a chunk preview. -/
def readWebpageChunk (pd : PrivateData) (userId documentId : Uuid) (row : DocumentChunk) :
    Except Exc WebpageChunk := do
  let text ← pd.readText row.text ⟨userId.str, documentId.str, chunkTextField row.seq⟩
  let metadata ← pd.readJson row.metadata
    ⟨userId.str, documentId.str, chunkMetadataField row.seq⟩
  let url ← sourceUrl metadata
  pure ⟨row.seq, text, url⟩

/-- `WebpageRepository.get_chunks`. -/
def getChunks (pd : PrivateData) (db : Database) (documentId userId : Uuid) (offset limit : Nat) :
    Except Exc (Option WebpageChunks) := do
  lockActiveOwner db userId
  match select db documentId userId with
  | none => pure none
  | some _ =>
      let total := (db.chunksOf documentId).length
      let ordered := (db.chunksOf documentId).mergeSort (fun a b => a.seq ≤ b.seq)
      let chunks ← ((ordered.drop offset).take limit).mapM (readWebpageChunk pd userId documentId)
      pure (some ⟨documentId, userId, chunks, total⟩)

/-- The row changes of an accepted `enqueue`. -/
def enqueued (now : Time) (document : Document) (page : DocumentWebpage) :
    Document × DocumentWebpage :=
  let document := if page.contentHash = none then
      { document with status := .processing, error := none }
    else document
  ({ document with updatedAt := now },
    { page with
      syncStatus := .queued
      queueReason := .manual
      syncError := none
      lastSyncChanged := none
      claimToken := none
      claimedAt := none })

@[simp] theorem enqueued_id (now : Time) (document : Document) (page : DocumentWebpage) :
    (enqueued now document page).1.id = document.id := by
  unfold enqueued
  split <;> rfl

/-- The detail that `enqueue` and `set_auto_sync` read after their commit. -/
def committedDetail (pd : PrivateData) :
    Option (Document × DocumentWebpage) → Except Exc (Option WebpageDetail)
  | none => .ok none
  | some rows => (detail pd rows.1 rows.2).map some

/-- The transaction of `enqueue`. -/
def enqueueTransaction (now : Time) (db : Database) (documentId userId : Uuid) :
    Except Exc (Option (Document × DocumentWebpage) × Database) := do
  lockActiveOwner db userId
  match select db documentId userId with
  | none => pure (none, db)
  | some (document, page) =>
      if page.syncStatus = .queued ∨ page.syncStatus = .running then
        .error (.syncConflict "webpage sync is already queued or running")
      else
        let rows := enqueued now document page
        pure (some rows, (db.updateDocument rows.1).updateWebpage rows.2)

/-- `WebpageRepository.enqueue`. -/
def enqueue (pd : PrivateData) (now : Time) (db : Database) (documentId userId : Uuid) :
    Outcome (Option WebpageDetail) :=
  .afterCommit db (enqueueTransaction now db documentId userId) (committedDetail pd)

/-- Whether switching auto-sync off cancels the work of this row: only automatic work. -/
def cancels (page : DocumentWebpage) (autoSync : Bool) : Bool :=
  !autoSync && page.queueReason = .automatic &&
    (page.syncStatus = .queued || page.syncStatus = .running)

/-- The row changes of `set_auto_sync`: none when the switch already stands so. -/
def autoSyncSet (now : Time) (document : Document) (page : DocumentWebpage) (autoSync : Bool) :
    Document × DocumentWebpage :=
  if page.autoSync = autoSync then (document, page)
  else
    let switched : DocumentWebpage := { page with
      autoSync := autoSync
      nextSyncAt := if autoSync then some (page.lastCheckedAt.getD now + syncInterval) else none }
    let settled := if cancels page autoSync then
        { switched with syncStatus := .idle, claimToken := none, claimedAt := none }
      else switched
    ({ document with updatedAt := now }, settled)

theorem autoSyncSet_id (now : Time) (document : Document) (page : DocumentWebpage)
    (autoSync : Bool) :
    (autoSyncSet now document page autoSync).1.id = document.id ∧
      (autoSyncSet now document page autoSync).2.documentId = page.documentId := by
  unfold autoSyncSet
  dsimp only
  split
  · exact ⟨rfl, rfl⟩
  · split <;> exact ⟨rfl, rfl⟩

/-- The transaction of `set_auto_sync`. -/
def setAutoSyncTransaction (now : Time) (db : Database) (documentId userId : Uuid)
    (autoSync : Bool) : Except Exc (Option (Document × DocumentWebpage) × Database) := do
  lockActiveOwner db userId
  match select db documentId userId with
  | none => pure (none, db)
  | some (document, page) =>
      let rows := autoSyncSet now document page autoSync
      pure (some rows, (db.updateDocument rows.1).updateWebpage rows.2)

/-- `WebpageRepository.set_auto_sync`. -/
def setAutoSync (pd : PrivateData) (now : Time) (db : Database) (documentId userId : Uuid)
    (autoSync : Bool) : Outcome (Option WebpageDetail) :=
  .afterCommit db (setAutoSyncTransaction now db documentId userId autoSync) (committedDetail pd)

/-! ## Claims -/

/-- `_due`: queued, or running on an expired lease, or automatically due. -/
def due (now : Time) (page : DocumentWebpage) : Bool :=
  page.syncStatus = .queued
    || (page.syncStatus = .running && page.claimedAt.any (fun at_ => at_ < now - claimLease))
    || (page.autoSync && (page.syncStatus = .idle || page.syncStatus = .failed)
        && page.nextSyncAt.any (fun at_ => at_ ≤ now))

/-- Oldest change first; documents of one moment by identifier. -/
def olderFirst (a b : Document) : Bool :=
  a.updatedAt < b.updatedAt || (a.updatedAt = b.updatedAt && a.id ≤ b.id)

/-- The candidate query of `claim`: at most 100 due documents with their owners. -/
def candidates (now : Time) (db : Database) : List (Uuid × Uuid) :=
  (((db.documents.rows.filter (fun d => (db.webpage? d.id).any (due now))).mergeSort
    olderFirst).take 100).map (fun d => (d.id, d.userId))

/-- The row changes of a claim. -/
def claimed (token : Uuid) (now : Time) (document : Document) (page : DocumentWebpage) :
    Document × DocumentWebpage :=
  ({ document with updatedAt := now },
    { page with
      queueReason := if page.syncStatus = .idle ∨ page.syncStatus = .failed then .automatic
                     else page.queueReason
      syncStatus := .running
      claimToken := some token
      claimedAt := some now
      syncError := none
      lastSyncChanged := none })

/-- The transaction in which `claim` tries one candidate. -/
def claimTransaction (pd : PrivateData) (token : Uuid) (now : Time) (db : Database)
    (documentId owner : Uuid) : Except Exc (Option WebpageClaim × Database) := do
  lockActiveOwner db owner
  match (select db documentId owner).filter (fun rows => due now rows.2) with
  | none => pure (none, db)
  | some (document, page) =>
      let rows := claimed token now document page
      let urls ← readUrls pd owner.str documentId.str page.urls
      let claim : WebpageClaim := {
        documentId := documentId
        userId := owner
        token := token
        urls := urls
        contentHash := page.contentHash
        reason := rows.2.queueReason }
      pure (some claim, (db.updateDocument rows.1).updateWebpage rows.2)

/-- One turn of the loop of `claim`. -/
def claimCandidate (pd : PrivateData) (token : Uuid) (now : Time) (db : Database)
    (documentId owner : Uuid) : Outcome (Option WebpageClaim) :=
  .ofTransaction db (claimTransaction pd token now db documentId owner)

/-- The loop of `claim` over its candidates: the first that can be claimed, passing over
erased owners and rows no longer due.  `clock` and `uuid4` are read once a candidate. -/
def claimLoop (pd : PrivateData) (clock : Nat → Time) (uuid4 : Nat → Uuid) :
    List (Uuid × Uuid) → Nat → Database → Outcome (Option WebpageClaim)
  | [], _, db => ⟨.ok none, db⟩
  | (documentId, owner) :: rest, i, db =>
      let tried := claimCandidate pd (uuid4 i) (clock i) db documentId owner
      match tried.result with
      | .ok (some claim) => ⟨.ok (some claim), tried.db⟩
      | .ok none => claimLoop pd clock uuid4 rest (i + 1) tried.db
      | .error .ownerDataErased => claimLoop pd clock uuid4 rest (i + 1) tried.db
      | .error e => ⟨.error e, tried.db⟩

/-- `WebpageRepository.claim`. -/
def claim (pd : PrivateData) (clock : Nat → Time) (uuid4 : Nat → Uuid) (db : Database) :
    Outcome (Option WebpageClaim) :=
  claimLoop pd clock uuid4 (candidates (clock 0) db) 1 db

/-- Whether this claim holds the row: the row is running under its token. -/
def holds (claim : WebpageClaim) (page : DocumentWebpage) : Bool :=
  page.syncStatus = .running && page.claimToken = some claim.token

/-- `WebpageRepository.claim_is_current`. -/
def claimIsCurrent (db : Database) (claim : WebpageClaim) : Bool :=
  match lockActiveOwner db claim.userId with
  | .error _ => false
  | .ok () => (select db claim.documentId claim.userId).any (fun rows => holds claim rows.2)

/-! ## Completion -/

/-- What `_complete` does to the rows of a successful sync.  Chunks, content and hash are
replaced together, and only when the hash differs from the stored one.  The column of the
hash holds 64 characters. -/
def publish (pd : PrivateData) (uuid4 : Nat → Uuid) (db : Database) (claim : WebpageClaim)
    (document : Document) (page : DocumentWebpage) (content contentHash : Option String)
    (chunks : Option (List IngestChunk)) (embeddings : Option (List Embedding)) :
    Except Exc (Document × DocumentWebpage × Database) :=
  match content.filter (· ≠ ""), contentHash.filter (· ≠ "") with
  | some content, some contentHash =>
      if page.contentHash ≠ some contentHash then
        match chunks.filter (· ≠ []), embeddings with
        | some chunks, some embeddings =>
            if chunks.length ≠ embeddings.length then
              .error (.valueError "webpage publication requires all embedded chunks")
            else do
              let rows ← chunkRows pd uuid4 claim.userId.str document.id chunks embeddings
              let stored ← pd.encryptText content
                ⟨claim.userId.str, document.id.str, "webpage:content"⟩
              let db' ← (db.deleteChunks document.id).insertChunks rows
              if 64 < contentHash.length then
                .error (.database "value too long for type character varying(64)")
              else pure ({ document with status := .ready, error := none },
                { page with
                  content := stored
                  contentHash := some contentHash
                  syncStatus := .idle }, db')
        | _, _ => .error (.valueError "webpage publication requires all embedded chunks")
      else
        .ok ({ document with status := .ready, error := none },
          { page with syncStatus := .idle }, db)
  | _, _ => .error (.valueError "webpage publication requires nonempty content")

/-- What `_complete` does to the rows of a failed sync: the document fails only when it was
never published. -/
def recordFailure (pd : PrivateData) (claim : WebpageClaim) (document : Document)
    (page : DocumentWebpage) (error : String) : Except Exc (Document × DocumentWebpage) :=
  if page.contentHash = none then do
    let stored ← pd.encryptText error ⟨claim.userId.str, document.id.str, "document:error"⟩
    pure ({ document with status := .failed, error := some stored },
      { page with syncStatus := .failed })
  else .ok (document, { page with syncStatus := .failed })

/-- The fields that every completion sets last. -/
def closed (now : Time) (success : Option Bool) (syncError : Option String)
    (page : DocumentWebpage) : DocumentWebpage :=
  { page with
    syncError := syncError
    lastSyncChanged := success
    lastCheckedAt := some now
    lastSyncedAt := if success.isSome then some now else page.lastSyncedAt
    nextSyncAt := if page.autoSync then some (now + syncInterval) else none
    claimToken := none
    claimedAt := none }

/-- The transaction of `_complete`.  `error` is null exactly for `finish`. -/
def completeTransaction (pd : PrivateData) (uuid4 : Nat → Uuid) (now : Time) (db : Database)
    (claim : WebpageClaim) (content contentHash : Option String)
    (chunks : Option (List IngestChunk)) (embeddings : Option (List Embedding))
    (error : Option String) : Except Exc (Bool × Database) := do
  lockActiveOwner db claim.userId
  match select db claim.documentId claim.userId with
  | none => pure (false, db)
  | some (document, page) =>
      if holds claim page then
        match error with
        | none => do
            let (document', page', db') ←
              publish pd uuid4 db claim document page content contentHash chunks embeddings
            let final := closed now (some (page.contentHash ≠ contentHash)) none page'
            pure (true,
              (db'.updateDocument { document' with updatedAt := now }).updateWebpage final)
        | some error => do
            let (document', page') ← recordFailure pd claim document page error
            let stored ← pd.encryptText error
              ⟨claim.userId.str, document.id.str, "webpage:error"⟩
            let final := closed now none (some stored) page'
            pure (true,
              (db.updateDocument { document' with updatedAt := now }).updateWebpage final)
      else pure (false, db)

/-- `_complete`: an erased owner reads as a claim that is no longer current. -/
def complete (pd : PrivateData) (uuid4 : Nat → Uuid) (now : Time) (db : Database)
    (claim : WebpageClaim) (content contentHash : Option String)
    (chunks : Option (List IngestChunk)) (embeddings : Option (List Embedding))
    (error : Option String) : Outcome Bool :=
  .ofTransaction db
    (match completeTransaction pd uuid4 now db claim content contentHash chunks embeddings
        error with
    | .error .ownerDataErased => .ok (false, db)
    | t => t)

/-- `WebpageRepository.finish`. -/
def finish (pd : PrivateData) (uuid4 : Nat → Uuid) (now : Time) (db : Database)
    (claim : WebpageClaim) (content contentHash : String) (chunks : Option (List IngestChunk))
    (embeddings : Option (List Embedding)) : Outcome Bool :=
  complete pd uuid4 now db claim (some content) (some contentHash) chunks embeddings none

/-- `WebpageRepository.fail`. -/
def fail (pd : PrivateData) (now : Time) (db : Database) (claim : WebpageClaim)
    (error : String) : Outcome Bool :=
  complete pd (fun _ => 0) now db claim none none none none (some (truncate error 1000))

end PortRag.Webpages
