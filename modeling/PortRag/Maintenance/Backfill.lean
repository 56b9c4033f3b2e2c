import PortRag.Foundation.Keyset
import PortRag.Knowledge.Revisions
import PortRag.Webpages.Worker

set_option autoImplicit false

/-!
# The private-data backfill

`rag/security/private_data_backfill.py`: one transaction that reads the four tables with
private columns in pages of 100 rows by key, encrypts what is still plain and checks what is
already encrypted.  A `Target` is one of the tables with the columns it converts.
-/

namespace PortRag.Maintenance

open PortRag.Foundation PortRag.Db PortRag.Security PortRag.Http PortRag.Ingest PortRag.Knowledge
  PortRag.Webpages

/-- The database during the backfill, and whether the trigger that guards frozen chunks is
enabled. -/
structure Session where
  db : Database
  triggerEnabled : Bool

/-! ## Columns -/

/-- `encrypted` of a text. -/
def encrypted (value : String) : Bool := hasCipherPrefix value

/-- `legacy` of a text column. -/
def legacyText : Option String → Bool
  | none => false
  | some value => !encrypted value

/-- `legacy` of the column `urls`. -/
def legacyUrls (urls : List String) : Bool := urls.any (fun url => !encrypted url)

/-- `legacy` of the column `metadata`. -/
def legacyMetadata (value : Json) : Bool :=
  match value with
  | .null => false
  | value => !isEnvelope value

/-- `text` of `convert`: ciphertext is only read. -/
def convertText (cipher : PrivateDataCipher) (value : String) (binding : StorageBinding) :
    Except Exc String :=
  if encrypted value then do
    let _ ← cipher.privateData.readText value binding
    pure value
  else cipher.privateData.encryptText value binding

/-- `text` of a nullable column. -/
def convertOptional (cipher : PrivateDataCipher) (value : Option String)
    (binding : StorageBinding) : Except Exc (Option String) :=
  match value with
  | none => pure none
  | some value => (convertText cipher value binding).map some

/-- `structured` of `convert`. -/
def convertMetadata (cipher : PrivateDataCipher) (value : Json) (binding : StorageBinding) :
    Except Exc Json :=
  if isEnvelope value then do
    let _ ← cipher.privateData.readJson value binding
    pure value
  else cipher.privateData.encryptJson value binding

/-- The loop over `urls`. -/
def convertUrls (cipher : PrivateDataCipher) (owner resource : String) (urls : List String) :
    Except Exc (List String) :=
  urls.zipIdx.mapM (fun u => convertText cipher u.1 ⟨owner, resource, urlField u.2⟩)

/-- The conversion of `content_hash`: a plain digest becomes its fingerprint. -/
def convertHash (cipher : PrivateDataCipher) (value : Option String) (binding : StorageBinding) :
    Except Exc (Option String) :=
  match value with
  | none => pure none
  | some digest =>
      if digest ≠ "" ∧ ¬ encrypted digest = true then (cipher.lookup digest binding).map some
      else pure (some digest)

/-! ## Targets -/

/-- `Target`: rows of type `ρ` with their owners, and the converted columns `α`. -/
structure Target (ρ α : Type) where
  table : String
  key : ρ → Uuid
  rows : Database → List (ρ × Uuid)
  legacy : ρ → Bool
  convert : PrivateDataCipher → ρ → Uuid → Except Exc α
  assign : α → ρ → ρ
  update : Session → Uuid → α → Except Exc Session

/-- The columns of `documents` that are converted. -/
structure DocumentColumns where
  name : String
  error : Option String

/-- The rows of `documents`, each with its owner. -/
def documentRows (db : Database) : List (Document × Uuid) :=
  db.documents.rows.map (fun d => (d, d.userId))

/-- The new columns of a document, each under the binding of its cell. -/
def convertDocument (cipher : PrivateDataCipher) (row : Document) (owner : Uuid) :
    Except Exc DocumentColumns := do
  let name ← convertText cipher row.name ⟨owner.str, row.id.str, "document:name"⟩
  let error ← convertOptional cipher row.error ⟨owner.str, row.id.str, "document:error"⟩
  pure ⟨name, error⟩

/-- `setattr` of the converted columns of a document. -/
def assignDocument (values : DocumentColumns) (row : Document) : Document :=
  { row with name := values.name, error := values.error }

/-- `rag_assert_owner_active`, as the admission triggers call it.  What it raises reaches the caller
as a `DBAPIError` of the driver, and not as `OwnerDataErased`. -/
def assertOwnerActive (db : Database) (userId : Uuid) : Except Exc Unit :=
  if userId ∈ db.erasedOwners then .error (.database "rag owner data erased") else .ok ()

/-- `UPDATE documents`; the admission trigger refuses the rows of an erased owner. -/
def updateDocument (s : Session) (id : Uuid) (values : DocumentColumns) : Except Exc Session :=
  match s.db.document? id with
  | none => .ok s
  | some row => do
      assertOwnerActive s.db row.userId
      pure { s with db := s.db.updateDocument (assignDocument values row) }

/-- The target `documents`: its name, its key, its rows, which of them are legacy, and how one is
converted and written. -/
def documents : Target Document DocumentColumns where
  table := "documents"
  key := Document.id
  rows := documentRows
  legacy := fun row => legacyText (some row.name) || legacyText row.error
  convert := convertDocument
  assign := assignDocument
  update := updateDocument

/-- The columns of `chunks` that are converted. -/
structure ChunkColumns where
  text : String
  metadata : Json

/-- The join of `chunks` with `documents`. -/
def chunkOwners (db : Database) : List (DocumentChunk × Uuid) :=
  db.chunks.rows.filterMap (fun c => (db.document? c.documentId).map (fun d => (c, d.userId)))

/-- The new columns of a chunk. -/
def convertChunk (cipher : PrivateDataCipher) (row : DocumentChunk) (owner : Uuid) :
    Except Exc ChunkColumns := do
  let text ← convertText cipher row.text ⟨owner.str, row.documentId.str, chunkTextField row.seq⟩
  let metadata ← convertMetadata cipher row.metadata
    ⟨owner.str, row.documentId.str, chunkMetadataField row.seq⟩
  pure ⟨text, metadata⟩

/-- The converted columns of a chunk in its row. -/
def assignChunk (values : ChunkColumns) (row : DocumentChunk) : DocumentChunk :=
  { row with text := values.text, metadata := values.metadata }

/-- `rag_chunk_owner_admission`: the trigger of `chunks` and `document_webpages`. -/
def admitDocument (db : Database) (documentId : Uuid) : Except Exc Unit :=
  match db.document? documentId with
  | none => .error (.database "rag owner is required")
  | some document => assertOwnerActive db document.userId

/-- `UPDATE chunks`; the admission trigger refuses the rows of an erased owner. -/
def updateChunk (s : Session) (id : Uuid) (values : ChunkColumns) : Except Exc Session :=
  match s.db.chunks.find? id with
  | none => .ok s
  | some row => do
      admitDocument s.db row.documentId
      pure { s with
        db := s.db.rewriteChunks (fun c => if c.id = id then assignChunk values c else c)
          (fun c => by split <;> rfl) (fun c => by split <;> rfl) }

/-- The target `chunks`. -/
def chunks : Target DocumentChunk ChunkColumns where
  table := "chunks"
  key := DocumentChunk.id
  rows := chunkOwners
  legacy := fun row => legacyText (some row.text) || legacyMetadata row.metadata
  convert := convertChunk
  assign := assignChunk
  update := updateChunk

/-- The columns of `knowledge_revision_chunks` that are converted. -/
structure FrozenColumns where
  documentName : String
  text : String
  metadata : Json

/-- The join of `knowledge_revision_chunks` with `knowledge_revisions`. -/
def frozenOwners (db : Database) : List (KnowledgeRevisionChunk × Uuid) :=
  db.revisionChunks.rows.filterMap
    (fun c => (db.revisions.find? c.revisionId).map (fun r => (c, r.userId)))

/-- The new columns of a frozen chunk, under the bindings of its revision. -/
def convertFrozen (cipher : PrivateDataCipher) (row : KnowledgeRevisionChunk) (owner : Uuid) :
    Except Exc FrozenColumns := do
  let documentName ← convertText cipher row.documentName
    ⟨owner.str, row.revisionId.str, frozenNameField row.sourceDocumentId⟩
  let text ← convertText cipher row.text
    ⟨owner.str, row.revisionId.str, frozenTextField row.sourceDocumentId row.seq⟩
  let metadata ← convertMetadata cipher row.metadata
    ⟨owner.str, row.revisionId.str, frozenMetadataField row.sourceDocumentId row.seq⟩
  pure ⟨documentName, text, metadata⟩

/-- The converted columns of a frozen chunk in its row. -/
def assignFrozen (values : FrozenColumns) (row : KnowledgeRevisionChunk) :
    KnowledgeRevisionChunk :=
  { row with
    documentName := values.documentName
    text := values.text
    metadata := values.metadata }

/-- `UPDATE knowledge_revision_chunks`, which the trigger refuses while it is enabled. -/
def updateFrozen (s : Session) (id : Uuid) (values : FrozenColumns) : Except Exc Session :=
  if s.triggerEnabled then .error (.database "knowledge revision chunks are immutable")
  else .ok { s with
    db := s.db.rewriteRevisionChunks (fun c => if c.id = id then assignFrozen values c else c)
      (fun c => by split <;> rfl) (fun c => by split <;> rfl) }

/-- The target `knowledge_revision_chunks`. -/
def revisionChunks : Target KnowledgeRevisionChunk FrozenColumns where
  table := "knowledge_revision_chunks"
  key := KnowledgeRevisionChunk.id
  rows := frozenOwners
  legacy := fun row => legacyText (some row.documentName) || legacyText (some row.text)
    || legacyMetadata row.metadata
  convert := convertFrozen
  assign := assignFrozen
  update := updateFrozen

/-- The columns of `document_webpages` that are converted. -/
structure WebpageColumns where
  urls : List String
  content : String
  syncError : Option String
  contentHash : Option String

/-- The join of `document_webpages` with `documents`. -/
def webpageOwners (db : Database) : List (DocumentWebpage × Uuid) :=
  db.webpages.rows.filterMap (fun p => (db.document? p.documentId).map (fun d => (p, d.userId)))

/-- The new columns of a webpage row; a plain digest becomes a fingerprint. -/
def convertWebpage (cipher : PrivateDataCipher) (row : DocumentWebpage) (owner : Uuid) :
    Except Exc WebpageColumns := do
  let urls ← convertUrls cipher owner.str row.documentId.str row.urls
  let content ← convertText cipher row.content
    ⟨owner.str, row.documentId.str, "webpage:content"⟩
  let syncError ← convertOptional cipher row.syncError
    ⟨owner.str, row.documentId.str, "webpage:error"⟩
  let contentHash ← convertHash cipher row.contentHash
    ⟨owner.str, row.documentId.str, "webpage:content-fingerprint"⟩
  pure ⟨urls, content, syncError, contentHash⟩

/-- The converted columns of a webpage in its row. -/
def assignWebpage (values : WebpageColumns) (row : DocumentWebpage) : DocumentWebpage :=
  { row with
    urls := values.urls
    content := values.content
    syncError := values.syncError
    contentHash := values.contentHash }

/-- `UPDATE document_webpages`; the admission trigger refuses the rows of an erased owner, and
the column of the hash holds 64 characters. -/
def updateWebpage (s : Session) (id : Uuid) (values : WebpageColumns) : Except Exc Session :=
  match s.db.webpage? id with
  | none => .ok s
  | some row => do
      admitDocument s.db row.documentId
      if values.contentHash.any (fun h => 64 < h.length) then
        .error (.database "value too long for type character varying(64)")
      else pure { s with db := s.db.updateWebpage (assignWebpage values row) }

/-- The target `document_webpages`. -/
def documentWebpages : Target DocumentWebpage WebpageColumns where
  table := "document_webpages"
  key := DocumentWebpage.documentId
  rows := webpageOwners
  legacy := fun row => legacyUrls row.urls || legacyText (some row.content)
    || legacyText row.syncError || legacyText row.contentHash
  convert := convertWebpage
  assign := assignWebpage
  update := updateWebpage

/-! ## The loop -/

/-- The counters of one target, and the keys of the rows it has visited. -/
structure Progress where
  session : Session
  before : Nat
  converted : Nat
  visited : List Uuid

section Loop

variable {ρ α : Type}

/-- One turn of the loop over the rows of a page. -/
def visitRow (T : Target ρ α) (cipher : PrivateDataCipher) (apply : Bool) (p : Progress)
    (row : ρ × Uuid) : Except Exc Progress :=
  let isLegacy := T.legacy row.1
  let counted := { p with
    before := if isLegacy then p.before + 1 else p.before
    visited := p.visited ++ [T.key row.1] }
  if !apply then pure counted
  else do
    let values ← T.convert cipher row.1 row.2
    if !isLegacy then pure counted
    else
      let session ← T.update p.session (T.key row.1) values
      pure { counted with session := session, converted := p.converted + 1 }

/-- The pages of one target.  The bound on their number is never reached. -/
def backfillTarget (T : Target ρ α) (cipher : PrivateDataCipher) (apply : Bool) (s : Session) :
    Except Exc Progress :=
  scan (fun row : ρ × Uuid => T.key row.1) (fun p : Progress => T.rows p.session.db)
    (visitRow T cipher apply) 100 (.other "unreachable") ((T.rows s.db).length + 1) none
    ⟨s, 0, 0, []⟩

end Loop

/-- The report of one target, and the keys of the rows it has visited. -/
structure Report where
  table : String
  before : Nat
  converted : Nat
  remaining : Int
  visited : List Uuid

/-- The report of a target whose pages have been visited. -/
def Progress.report (p : Progress) (table : String) : Report :=
  ⟨table, p.before, p.converted, p.before - p.converted, p.visited⟩

/-- The target of frozen chunks, with its trigger disabled meanwhile. -/
def backfillFrozen (cipher : PrivateDataCipher) (apply : Bool) (s : Session) :
    Except Exc Progress :=
  if !apply then backfillTarget revisionChunks cipher apply s
  else if !s.triggerEnabled then
    .error (.other "Immutable revision trigger must be enabled before backfill")
  else do
    let p ← backfillTarget revisionChunks cipher apply { s with triggerEnabled := false }
    pure { p with session := { p.session with triggerEnabled := true } }

/-- `backfill`. -/
def backfill (cipher : PrivateDataCipher) (apply : Bool) (s : Session) :
    Except Exc (List Report × Session) := do
  let p₁ ← backfillTarget documents cipher apply s
  let p₂ ← backfillTarget chunks cipher apply p₁.session
  let p₃ ← backfillFrozen cipher apply p₂.session
  let p₄ ← backfillTarget documentWebpages cipher apply p₃.session
  pure ([p₁.report documents.table, p₂.report chunks.table, p₃.report revisionChunks.table,
    p₄.report documentWebpages.table], p₄.session)

end PortRag.Maintenance
