import PortRag.Ingest.Pipeline
import PortRag.Webpages.Repository

set_option autoImplicit false

/-!
# The requests that create documents

`upload_document` of `rag/http/documents.py` and `register` of `rag/http/webpages.py`, from
their call of the repository on.  Between the call and the `except` clauses there is no await,
so no other request sees a document refused and its staged original still there.
-/

namespace PortRag.Http

open PortRag.Db PortRag.Security PortRag.Ingest PortRag.Webpages

/-- What a handler ends with: an `HTTPException`, or another exception. -/
inductive Refusal where
  | http (status : Nat) (detail : String)
  | raised (e : Exc)
  deriving DecidableEq

/-- What the requests share: the database and the staged originals on disk. -/
structure Site where
  db : Database
  staged : List StagedPath

namespace Site

/-- A service just installed. -/
def empty : Site := ⟨.empty, []⟩

/-- `path.unlink(missing_ok=True)`. -/
def unlink (s : Site) (path : StagedPath) : Site :=
  { s with staged := s.staged.filter (· ≠ path) }

end Site

/-- `_KNOWLEDGE_KEY_PATTERN.fullmatch(knowledge_key or f"knowledge_{…}")`, with the generated
key as `generated`. -/
def resolveKnowledgeKey (given : Option String) (generated : String) : Except Refusal String :=
  let resolved := (given.filter (· ≠ "")).getD generated
  if Database.validKnowledgeKey resolved then .ok resolved
  else .error (.http 422 "invalid knowledge key")

/-- A file upload whose key is resolved and whose original is staged at `path`. -/
structure Upload where
  pd : PrivateData
  documentId : Uuid
  now : Time
  userId : Uuid
  knowledgeKey : String
  filename : Option String
  contentType : Option String
  path : StagedPath
  valid : Database.validKnowledgeKey knowledgeKey = true

/-- A key that is resolved is well formed. -/
theorem valid_of_resolveKnowledgeKey {given : Option String} {generated key : String}
    (h : resolveKnowledgeKey given generated = .ok key) : Database.validKnowledgeKey key = true := by
  unfold resolveKnowledgeKey at h
  dsimp only at h
  split at h
  · next hvalid =>
      cases h
      exact hvalid
  · cases h

/-- The head of `upload_document`: an upload gets the key that is given, or else the generated
one, and is refused where that key is malformed. -/
def Upload.resolve (pd : PrivateData) (documentId : Uuid) (now : Time) (userId : Uuid)
    (given : Option String) (generated : String) (filename contentType : Option String)
    (path : StagedPath) : Except Refusal Upload :=
  match h : resolveKnowledgeKey given generated with
  | .error refusal => .error refusal
  | .ok key => .ok {
      pd := pd
      documentId := documentId
      now := now
      userId := userId
      knowledgeKey := key
      filename := filename
      contentType := contentType
      path := path
      valid := valid_of_resolveKnowledgeKey h }

/-- A malformed key is all that keeps a request from its upload, and the owner reads that it is. -/
theorem Upload.resolve_error_iff {pd : PrivateData} {documentId : Uuid} {now : Time}
    {userId : Uuid} {given : Option String} {generated : String}
    {filename contentType : Option String} {path : StagedPath} {refusal : Refusal} :
    Upload.resolve pd documentId now userId given generated filename contentType path =
        .error refusal ↔
      Database.validKnowledgeKey ((given.filter (· ≠ "")).getD generated) = false ∧
        refusal = .http 422 "invalid knowledge key" := by
  have hresolve : resolveKnowledgeKey given generated = .error refusal ↔
      Database.validKnowledgeKey ((given.filter (· ≠ "")).getD generated) = false ∧
        refusal = .http 422 "invalid knowledge key" := by
    unfold resolveKnowledgeKey
    dsimp only
    split
    · next hvalid =>
        refine ⟨fun h => (by cases h), fun h => ?_⟩
        rw [hvalid] at h
        cases h.1
    · next hinvalid =>
        rw [Bool.not_eq_true] at hinvalid
        exact ⟨fun h => ⟨hinvalid, (Except.error.inj h).symm⟩, fun h => by rw [h.2]⟩
  rw [← hresolve]
  unfold Upload.resolve
  split
  · next e herror => rw [herror, Except.error.injEq, Except.error.injEq]
  · next key hkey => simp [hkey]

/-- `file.filename or "upload"`. -/
def Upload.name (u : Upload) : String := (u.filename.filter (· ≠ "")).getD "upload"

/-- `file.content_type or "application/octet-stream"`. -/
def Upload.mime (u : Upload) : String :=
  (u.contentType.filter (· ≠ "")).getD "application/octet-stream"

/-- The call of `create_processing_document`. -/
def Upload.create (u : Upload) (db : Database) : Outcome DocumentRecord :=
  createProcessingDocument u.pd u.documentId u.now db u.userId u.knowledgeKey u.name u.mime

/-- The `except` clauses of `upload_document`: a cancellation is no `Exception`. -/
def uploadRefused (path : StagedPath) (s : Site) : Exc → Refusal × Site
  | .duplicateKnowledgeKey => (.http 409 "knowledge key already exists", s.unlink path)
  | .cancelled => (.raised .cancelled, s)
  | e => (.raised e, s.unlink path)

/-- A webpage registration whose key matches the pattern of its field. -/
structure Registration where
  pd : PrivateData
  lib : UrlFunctions
  documentId : Uuid
  now : Time
  userId : Uuid
  knowledgeKey : String
  name : Option String
  urls : List String
  autoSync : Bool
  valid : Database.validKnowledgeKey knowledgeKey = true

/-- The call of `repository.create`. -/
def Registration.create (r : Registration) (db : Database) : Outcome DocumentRecord :=
  Webpages.create r.pd r.lib r.documentId r.now db r.userId r.knowledgeKey r.name r.urls r.autoSync

/-- The `except` clauses of `register`. -/
def registrationRefused : Exc → Refusal
  | .duplicateKnowledgeKey => .http 409 "knowledge key already exists"
  | .webpageFetch message => .http 422 message
  | e => .raised e

/-- A request that creates a document. -/
inductive Creation where
  | upload (u : Upload)
  | register (r : Registration)

/-- What the call of the repository came to: its result, and the refusal when it raised. -/
structure CreationEnd where
  result : Except Exc DocumentRecord
  refusal : Option Refusal

/-- The call of the repository with the `except` clauses of the handler around it. -/
def Creation.exec : Creation → Site → CreationEnd × Site
  | .upload u, s =>
      let created := u.create s.db
      match created.result with
      | .ok record => (⟨.ok record, none⟩, { s with db := created.db })
      | .error e =>
          let refused := uploadRefused u.path { s with db := created.db } e
          (⟨.error e, some refused.1⟩, refused.2)
  | .register r, s =>
      let created := r.create s.db
      match created.result with
      | .ok record => (⟨.ok record, none⟩, { s with db := created.db })
      | .error e => (⟨.error e, some (registrationRefused e)⟩, { s with db := created.db })

/-- The staged original of a request. -/
def Creation.path? : Creation → Option StagedPath
  | .upload u => some u.path
  | .register _ => none

end PortRag.Http
