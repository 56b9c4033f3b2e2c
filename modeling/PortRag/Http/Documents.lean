import PortRag.Security.OwnerErasure
import PortRag.Security.PrivateData
import PortRag.Foundation.Except

set_option autoImplicit false

/-!
# Document records

The repository part of `rag/http/documents.py`: creation, listing and deletion of
documents, and the record that leaves the service.
-/

namespace PortRag.Http

open PortRag.Foundation PortRag.Db PortRag.Security

/-- `WebpageState`. -/
structure WebpageState where
  urls : List String
  autoSync : Bool
  syncStatus : SyncStatus
  lastSyncedAt : Option Time
  lastCheckedAt : Option Time
  nextSyncAt : Option Time
  syncError : Option String
  lastSyncChanged : Option Bool
  deriving DecidableEq, Inhabited

/-- `webpage_state`. -/
def webpageState (page : DocumentWebpage) : WebpageState where
  urls := page.urls
  autoSync := page.autoSync
  syncStatus := page.syncStatus
  lastSyncedAt := page.lastSyncedAt
  lastCheckedAt := page.lastCheckedAt
  nextSyncAt := page.nextSyncAt
  syncError := page.syncError
  lastSyncChanged := page.lastSyncChanged

/-- `DocumentRecord`. -/
structure DocumentRecord where
  id : Uuid
  userId : Uuid
  knowledgeKey : String
  name : String
  mime : String
  status : DocumentStatus
  error : Option String
  createdAt : Time
  updatedAt : Time
  webpage : Option WebpageState
  deriving DecidableEq, Inhabited

/-- The field name of the `index`-th URL. -/
def urlField (index : Nat) : String := "webpage:url:" ++ toString index

/-- The decrypted URL list of a webpage row, each URL under the binding of its index. -/
def readUrls (pd : PrivateData) (owner resource : String) (urls : List String) :
    Except Exc (List String) :=
  urls.zipIdx.mapM (fun u => pd.readText u.1 ⟨owner, resource, urlField u.2⟩)

/-- The stored URL list stands for `urls`, each URL under the binding of its index. -/
def UrlsStand (opens : Opens) (owner resource : String) (stored urls : List String) : Prop :=
  List.Forall₂ (fun (s : String × Nat) url =>
    TextStands opens s.1 ⟨owner, resource, urlField s.2⟩ url) stored.zipIdx urls

/-- The URL list as registration encrypts it. -/
theorem encryptUrls_stand {opens : Opens} {cipher : PrivateDataCipher} (huses : cipher.Uses opens)
    {owner resource : String} {urls stored : List String}
    (h : urls.zipIdx.mapM (fun u => cipher.privateData.encryptText u.1
      ⟨owner, resource, urlField u.2⟩) = .ok stored) :
    UrlsStand opens owner resource stored urls := by
  refine Forall₂.zipIdx_swap (R := fun url i s =>
    TextStands opens s ⟨owner, resource, urlField i⟩ url) ?_
  exact (mapM_eq_ok.mp h).imp (fun _ _ hs => encryptText_stands huses hs)

/-- The webpage part of `_to_private_record`. -/
def readWebpage (pd : PrivateData) (owner resource : String) :
    Option DocumentWebpage → Except Exc (Option WebpageState)
  | none => .ok none
  | some page => do
      let urls ← readUrls pd owner resource page.urls
      let syncError ← pd.readOptional page.syncError ⟨owner, resource, "webpage:error"⟩
      pure (some { webpageState page with urls := urls, syncError := syncError })

/-- `_to_private_record`. -/
def toPrivateRecord (pd : PrivateData) (document : Document) (webpage : Option DocumentWebpage) :
    Except Exc DocumentRecord := do
  let owner := document.userId.str
  let resource := document.id.str
  let page ← readWebpage pd owner resource webpage
  let name ← pd.readText document.name ⟨owner, resource, "document:name"⟩
  let error ← pd.readOptional document.error ⟨owner, resource, "document:error"⟩
  pure {
    id := document.id
    userId := document.userId
    knowledgeKey := document.knowledgeKey
    name := name
    mime := document.mime
    status := document.status
    error := error
    createdAt := document.createdAt
    updatedAt := document.updatedAt
    webpage := page }

/-- The test of `create_processing_document` for a taken knowledge key: it looks for the
constraint name under `orig.diag`. -/
def duplicateKeyByDiag : Exc → Exc
  | .integrityError (some "uq_documents_user_knowledge_key") _ => .duplicateKnowledgeKey
  | e => e

/-- A document row as both kinds of registration add it. -/
def processingDocument (documentId userId : Uuid) (knowledgeKey name mime : String)
    (now : Time) : Document where
  id := documentId
  userId := userId
  knowledgeKey := knowledgeKey
  name := name
  mime := mime
  status := .processing
  error := none
  createdAt := now
  updatedAt := now

/-- `SqlAlchemyDocumentRepository.create_processing_document`. -/
def createProcessingDocument (pd : PrivateData) (documentId : Uuid) (now : Time) (db : Database)
    (userId : Uuid) (knowledgeKey name mime : String) : Outcome DocumentRecord :=
  .afterCommit db
    (do
      lockActiveOwner db userId
      let encryptedName ← pd.encryptText name ⟨userId.str, documentId.str, "document:name"⟩
      let document := processingDocument documentId userId knowledgeKey encryptedName mime now
      let db' ← (db.insertDocument document).mapError duplicateKeyByDiag
      pure (document, db'))
    (fun document => toPrivateRecord pd document none)

/-- Newest first; documents of one moment by identifier. -/
def Document.listedBefore (a b : Document) : Bool :=
  b.createdAt < a.createdAt || (a.createdAt = b.createdAt && a.id ≤ b.id)

/-- `SqlAlchemyDocumentRepository.list_documents`. -/
def listDocuments (pd : PrivateData) (db : Database) (userId : Uuid) :
    Except Exc (List DocumentRecord) := do
  lockActiveOwner db userId
  let documents := (db.documents.rows.filter (fun d => d.userId = userId)).mergeSort
    Document.listedBefore
  documents.mapM (fun d => toPrivateRecord pd d (db.webpage? d.id))

/-- `SqlAlchemyDocumentRepository.get_document`. -/
def getDocument (pd : PrivateData) (db : Database) (documentId userId : Uuid) :
    Except Exc (Option DocumentRecord) := do
  lockActiveOwner db userId
  match (db.document? documentId).filter (fun d => d.userId = userId) with
  | none => pure none
  | some d => (toPrivateRecord pd d (db.webpage? documentId)).map some

/-- The transaction of `delete_document`. -/
def deleteTransaction (db : Database) (documentId userId : Uuid) :
    Except Exc (Bool × Database) := do
  lockActiveOwner db userId
  let (db', deleted) := db.deleteDocument documentId userId
  pure (deleted, db')

/-- `SqlAlchemyDocumentRepository.delete_document`. -/
def deleteDocument (db : Database) (documentId userId : Uuid) : Outcome Bool :=
  .ofTransaction db (deleteTransaction db documentId userId)

theorem deleteTransaction_ok {db db' : Database} {documentId userId : Uuid} {deleted : Bool}
    (h : deleteTransaction db documentId userId = .ok (deleted, db')) :
    userId ∉ db.erasedOwners ∧ db' = (db.deleteDocument documentId userId).1 ∧
      deleted = (db.deleteDocument documentId userId).2 := by
  obtain ⟨_, hlock, h⟩ := bind_eq_ok.mp h
  cases pure_eq_ok.mp h
  exact ⟨lockActiveOwner_ok hlock, rfl, rfl⟩

end PortRag.Http
