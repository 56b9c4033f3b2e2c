import PortRag.Foundation.Trace
import PortRag.Ingest.Chunker
import PortRag.Service.FileViews

set_option autoImplicit false

/-!
# The life of a file document

Uploads, ingest jobs with their retries, reindexes and deletions as one system over the database,
in steps of one transaction each, with every other call of the service beside them.  A job runs
`ingest` and a request runs `reindex`; what lies between two of their transactions is a point.

The parser, the chunker and the embedder answer what they like; whatever a transaction is refused
with, by the admission check in front of it or for want of the database, is its `outage`.
-/

namespace PortRag.Service

open PortRag.Foundation PortRag.Db PortRag.Security PortRag.Http PortRag.Ingest PortRag.Webpages
  PortRag.Knowledge

/-! ## Points -/

/-- How far a job is: its document is created; it is queued, or waits for a retry; it is in front
of its publication; or in front of the mark of one of the two handlers. -/
inductive IngestPoint where
  | created
  | queued
  | prepared (chunks : List IngestChunk) (embeddings : List Embedding)
  | unavailable
  | failing (e : Exc)

/-- A job of the worker. -/
structure IngestTask where
  job : IngestJob
  point : IngestPoint

/-- A job goes by the identifier of its document. -/
def IngestTask.id (t : IngestTask) : Uuid := t.job.documentId

/-- How far a request is: nothing is read; the chunks are read; it is in front of its last
transaction; or in front of the mark of the handler. -/
inductive ReindexPoint where
  | requested
  | read (chunks : List IngestChunk)
  | embedded (embeddings : List Embedding)
  | failing (e : Exc)

/-- A request for a reindex. -/
structure ReindexTask where
  id : Uuid
  documentId : Uuid
  userId : Uuid
  point : ReindexPoint

/-- Where an exception in the body of `ingest` leads: past both handlers, or into one. -/
def IngestPoint.afterError : Exc → Option IngestPoint
  | .ownerDataErased => none
  | .cancelled => none
  | .privateDataUnavailable => some .unavailable
  | e => some (.failing e)

/-- Where the preparation leads. -/
def IngestPoint.afterPreparation :
    Except Exc (List IngestChunk × List Embedding) → Option IngestPoint
  | .ok p => some (.prepared p.1 p.2)
  | .error e => afterError e

/-- Where the publication leads. -/
def IngestPoint.afterPublication : Except Exc Unit → Option IngestPoint
  | .ok _ => none
  | .error e => afterError e

/-- Where the mark in the handler of `PrivateDataUnavailable` leads. -/
def IngestPoint.afterUnavailable : Except Exc Unit → Option IngestPoint
  | .error .ownerDataErased => none
  | .error .cancelled => none
  | _ => some .queued

/-- Where the mark in the handler of every other exception leads. -/
def IngestPoint.afterFailure : Except Exc Unit → Option IngestPoint
  | .ok _ => none
  | .error .ownerDataErased => none
  | .error .cancelled => none
  | .error _ => some .queued

/-- Where an exception in the body of `reindex` leads. -/
def ReindexPoint.afterError : Exc → Option ReindexPoint
  | .ownerDataErased => none
  | .cancelled => none
  | e => some (.failing e)

/-- Where `get_chunks_for_reindex` leads. -/
def ReindexPoint.afterRead : Except Exc (Option (List IngestChunk)) → Option ReindexPoint
  | .ok none => none
  | .ok (some chunks) =>
      if chunks.isEmpty then some (.failing (.valueError "document has no chunks to reindex"))
      else some (.read chunks)
  | .error e => afterError e

/-- Where the embedder leads, over these chunks. -/
def ReindexPoint.afterEmbedding (chunks : List IngestChunk) :
    Except Exc (List Embedding) → Option ReindexPoint
  | .ok embeddings =>
      if embeddings.length ≠ chunks.length then
        some (.failing (.valueError ("embedder returned " ++ toString embeddings.length ++
          " embeddings for " ++ toString chunks.length ++ " chunks")))
      else some (.embedded embeddings)
  | .error e => afterError e

/-- Where `replace_embeddings_and_mark_ready` leads. -/
def ReindexPoint.afterStore : Except Exc Bool → Option ReindexPoint
  | .ok _ => none
  | .error e => afterError e

/-! ## Steps -/

/-- A transaction, unless it is refused beforehand. -/
def attempt {α : Type} (db : Database) (outage : Option Exc) (o : Outcome α) : Outcome α :=
  match outage with
  | some e => ⟨.error e, db⟩
  | none => o

theorem attempt_cases {α : Type} (db : Database) (outage : Option Exc) (o : Outcome α) :
    (attempt db outage o).db = db ∨ attempt db outage o = o := by
  cases outage with
  | some e => exact .inl rfl
  | none => exact .inr rfl

/-- What happens to a job. -/
inductive IngestAction where
  | enqueue
  | prepare (prepared : Except Exc (List IngestChunk × List Embedding))
  | publish (cipher : PrivateDataCipher) (uuid4 : Nat → Uuid) (now : Time) (outage : Option Exc)
  | mark (cipher : PrivateDataCipher) (now : Time) (outage : Option Exc)
  /-- It is dropped: its upload fails, its owner is erased, its process stops. -/
  | quit

/-- What happens to a request. -/
inductive ReindexAction where
  | read (cipher : PrivateDataCipher) (outage : Option Exc)
  | embed (answer : Except Exc (List Embedding))
  | store (now : Time) (outage : Option Exc)
  | mark (cipher : PrivateDataCipher) (now : Time) (outage : Option Exc)
  | quit

/-- One step of a job: where it is then, if it goes on, and the database. -/
def IngestTask.act (db : Database) (t : IngestTask) :
    IngestAction → Option (Option IngestPoint × Database)
  | .enqueue =>
      match t.point with
      | .created => some (some .queued, db)
      | _ => none
  | .prepare prepared =>
      match t.point with
      | .queued => some (IngestPoint.afterPreparation prepared, db)
      | _ => none
  | .publish cipher uuid4 now outage =>
      match t.point with
      | .prepared chunks embeddings =>
          let o := attempt db outage
            (replaceChunksAndMarkReady cipher.privateData uuid4 now db t.id chunks embeddings)
          some (IngestPoint.afterPublication o.result, o.db)
      | _ => none
  | .mark cipher now outage =>
      match t.point with
      | .unavailable =>
          let o := attempt db outage (markStorageUnavailable now db t.id)
          some (IngestPoint.afterUnavailable o.result, o.db)
      | .failing e =>
          let o := attempt db outage (markFailed cipher.privateData now db t.id e.message)
          some (IngestPoint.afterFailure o.result, o.db)
      | _ => none
  | .quit => some (none, db)

/-- One step of a request. -/
def ReindexTask.act (db : Database) (t : ReindexTask) :
    ReindexAction → Option (Option ReindexPoint × Database)
  | .read cipher outage =>
      match t.point with
      | .requested =>
          let answer := match outage with
            | some e => .error e
            | none => getChunksForReindex cipher.privateData db t.documentId t.userId
          some (ReindexPoint.afterRead answer, db)
      | _ => none
  | .embed answer =>
      match t.point with
      | .read chunks => some (ReindexPoint.afterEmbedding chunks answer, db)
      | _ => none
  | .store now outage =>
      match t.point with
      | .embedded embeddings =>
          let o := attempt db outage
            (replaceEmbeddingsAndMarkReady now db t.documentId t.userId embeddings)
          some (ReindexPoint.afterStore o.result, o.db)
      | _ => none
  | .mark cipher now outage =>
      match t.point with
      | .failing e =>
          let o := attempt db outage
            (markReindexFailed cipher.privateData now db t.documentId t.userId e.message)
          some (none, o.db)
      | _ => none
  | .quit => some (none, db)

/-- What a step of a job may be. -/
inductive IngestTask.Acts (db : Database) (t : IngestTask) :
    IngestAction → Option IngestPoint → Database → Prop where
  | enqueued (hpoint : t.point = .created) : Acts db t .enqueue (some .queued) db
  | prepared (hpoint : t.point = .queued)
      (prepared : Except Exc (List IngestChunk × List Embedding)) :
      Acts db t (.prepare prepared) (IngestPoint.afterPreparation prepared) db
  | published {chunks : List IngestChunk} {embeddings : List Embedding}
      (hpoint : t.point = .prepared chunks embeddings) (cipher : PrivateDataCipher)
      (uuid4 : Nat → Uuid) (now : Time) (outage : Option Exc) {o : Outcome Unit}
      (ho : attempt db outage (replaceChunksAndMarkReady cipher.privateData uuid4 now db t.id chunks
        embeddings) = o) :
      Acts db t (.publish cipher uuid4 now outage) (IngestPoint.afterPublication o.result) o.db
  | unavailable (hpoint : t.point = .unavailable) (cipher : PrivateDataCipher) (now : Time)
      (outage : Option Exc) {o : Outcome Unit}
      (ho : attempt db outage (markStorageUnavailable now db t.id) = o) :
      Acts db t (.mark cipher now outage) (IngestPoint.afterUnavailable o.result) o.db
  | failed {e : Exc} (hpoint : t.point = .failing e) (cipher : PrivateDataCipher) (now : Time)
      (outage : Option Exc) {o : Outcome Unit}
      (ho : attempt db outage (markFailed cipher.privateData now db t.id e.message) = o) :
      Acts db t (.mark cipher now outage) (IngestPoint.afterFailure o.result) o.db
  | quitted : Acts db t .quit none db

theorem IngestTask.acts {db db' : Database} {t : IngestTask} {action : IngestAction}
    {next : Option IngestPoint} (h : t.act db action = some (next, db')) :
    t.Acts db action next db' := by
  obtain ⟨job, point⟩ := t
  cases action with
  | enqueue => cases point <;> cases h; exact .enqueued rfl
  | prepare prepared => cases point <;> cases h; exact .prepared rfl prepared
  | publish cipher uuid4 now outage =>
      cases point <;> cases h
      exact .published rfl cipher uuid4 now outage rfl
  | mark cipher now outage =>
      cases point <;> cases h
      · exact .unavailable rfl cipher now outage rfl
      · exact .failed rfl cipher now outage rfl
  | quit =>
      cases h
      exact .quitted

/-- What a step of a request may be. -/
inductive ReindexTask.Acts (db : Database) (t : ReindexTask) :
    ReindexAction → Option ReindexPoint → Database → Prop where
  | refused (hpoint : t.point = .requested) (cipher : PrivateDataCipher) (e : Exc) :
      Acts db t (.read cipher (some e)) (ReindexPoint.afterError e) db
  | read (hpoint : t.point = .requested) (cipher : PrivateDataCipher) :
      Acts db t (.read cipher none) (ReindexPoint.afterRead
        (getChunksForReindex cipher.privateData db t.documentId t.userId)) db
  | embedded {chunks : List IngestChunk} (hpoint : t.point = .read chunks)
      (answer : Except Exc (List Embedding)) :
      Acts db t (.embed answer) (ReindexPoint.afterEmbedding chunks answer) db
  | stored {embeddings : List Embedding} (hpoint : t.point = .embedded embeddings) (now : Time)
      (outage : Option Exc) {o : Outcome Bool}
      (ho : attempt db outage (replaceEmbeddingsAndMarkReady now db t.documentId t.userId
        embeddings) = o) :
      Acts db t (.store now outage) (ReindexPoint.afterStore o.result) o.db
  | failed {e : Exc} (hpoint : t.point = .failing e) (cipher : PrivateDataCipher) (now : Time)
      (outage : Option Exc) {o : Outcome Bool}
      (ho : attempt db outage (markReindexFailed cipher.privateData now db t.documentId t.userId
        e.message) = o) :
      Acts db t (.mark cipher now outage) none o.db
  | quitted : Acts db t .quit none db

theorem ReindexTask.acts {db db' : Database} {t : ReindexTask} {action : ReindexAction}
    {next : Option ReindexPoint} (h : t.act db action = some (next, db')) :
    t.Acts db action next db' := by
  obtain ⟨id, documentId, userId, point⟩ := t
  cases action with
  | read cipher outage =>
      cases outage with
      | some e => cases point <;> cases h; exact .refused rfl cipher e
      | none => cases point <;> cases h; exact .read rfl cipher
  | embed answer => cases point <;> cases h; exact .embedded rfl answer
  | store now outage => cases point <;> cases h; exact .stored rfl now outage rfl
  | mark cipher now outage => cases point <;> cases h; exact .failed rfl cipher now outage rfl
  | quit =>
      cases h
      exact .quitted

/-- What the embedder returns in a step of a job, each vector with its text. -/
def IngestAction.returned : IngestAction → List (String × Embedding)
  | .prepare (.ok prepared) => (prepared.1.map IngestChunk.text).zip prepared.2
  | _ => []

/-- What the embedder returns in a step of a request. -/
def ReindexTask.returned (t : ReindexTask) : ReindexAction → List (String × Embedding)
  | .embed (.ok embeddings) =>
      match t.point with
      | .read chunks => (chunks.map IngestChunk.text).zip embeddings
      | _ => []
  | _ => []

/-! ## The system -/

/-- The database with the jobs and the reindexes that are under way on it. -/
structure FileService where
  db : Database
  jobs : Foundation.Table Uuid IngestTask IngestTask.id
  reindexes : Foundation.Table Uuid ReindexTask ReindexTask.id
  /-- What the embedder has returned so far, each vector with the text that it is for. -/
  returned : List (String × Embedding)
  /-- The identifiers that documents have had. -/
  used : List Uuid

/-- What happens next: a transaction of an upload, a job, a reindex or an erasure, or any other
call. -/
inductive FileEvent where
  /-- An upload creates its document. -/
  | create (cipher : PrivateDataCipher) (job : IngestJob) (now : Time)
      (knowledgeKey name mime : String)
  | job (id : Uuid) (action : IngestAction)
  | request (id documentId userId : Uuid)
  | reindex (id : Uuid) (action : ReindexAction)
  /-- Any other call of the service. -/
  | serve (cipher : PrivateDataCipher) (call : ServiceCall)
  | fence (userId : Uuid)
  | erase (userId : Uuid)

namespace FileService

/-- A job is at `next` then, or through. -/
def jobTo (s : FileService) (t : IngestTask) (next : Option IngestPoint) : FileService :=
  { s with
    jobs := match next with
      | some p => s.jobs.set { t with point := p }
      | none => s.jobs.keep (fun u => u.id ≠ t.id) }

/-- A request is at `next` then, or answered. -/
def reindexTo (s : FileService) (t : ReindexTask) (next : Option ReindexPoint) : FileService :=
  { s with
    reindexes := match next with
      | some p => s.reindexes.set { t with point := p }
      | none => s.reindexes.keep (fun u => u.id ≠ t.id) }

/-- One step of the system.  A new document gets an identifier that no document has had: that
`uuid4` never repeats itself is an assumption of the model, and what is said of one identifier over
a whole run rests on it.  A commit whose acknowledgement is lost is outside the model: a transaction
that raises has written nothing. -/
def step (s : FileService) : FileEvent → Option FileService
  | .create cipher job now knowledgeKey name mime =>
      if job.documentId ∈ s.used then none
      else
        let o := createProcessingDocument cipher.privateData job.documentId now s.db job.userId
          knowledgeKey name mime
        some { s with
          db := o.db
          used := job.documentId :: s.used
          jobs := if o.result.toBool then s.jobs.set ⟨job, .created⟩ else s.jobs }
  | .job id action =>
      (s.jobs.find? id).bind fun t => (t.act s.db action).map fun r =>
        { s.jobTo t r.1 with db := r.2, returned := action.returned ++ s.returned }
  | .request id documentId userId =>
      if s.reindexes.find? id = none then
        some { s with reindexes := s.reindexes.set ⟨id, documentId, userId, .requested⟩ }
      else none
  | .reindex id action =>
      (s.reindexes.find? id).bind fun t => (t.act s.db action).map fun r =>
        { s.reindexTo t r.1 with db := r.2, returned := t.returned action ++ s.returned }
  | .serve cipher call =>
      if call.ofFiles ∨ call.fresh.any (fun id => id ∈ s.used) then none
      else
        some { s with
          db := (call.exec cipher.privateData s.db).db
          used := call.fresh.toList ++ s.used }
  | .fence userId => some { s with db := Security.fence s.db userId }
  | .erase userId => some { s with db := Security.erase s.db userId }

/-- What is known of the parts outside: a job is prepared by a run whose chunks Docling has cut,
and what a job stores or a request reads goes through a cipher with the key material `opens`. -/
def Possible (opens : Opens) (s : FileService) : FileEvent → Prop
  | .job id (.prepare prepared) => ∀ t, s.jobs.find? id = some t →
      ∃ env : IngestEnv, env.CutsByDocling ∧ prepared = Ingest.prepare env t.job
  | .job _ (.publish cipher ..) => cipher.Uses opens
  | .reindex _ (.read cipher ..) => cipher.Uses opens
  | _ => True

/-- A step of the system, as a step of a run. -/
def StepTo (opens : Opens) (s : FileService) (e : FileEvent) (_ : Unit) (s' : FileService) : Prop :=
  s.Possible opens e ∧ s.step e = some s'

/-- No document has been created, and nothing is under way. -/
def Initial (s : FileService) : Prop :=
  s.db.documents = .empty ∧ s.jobs = .empty ∧ s.reindexes = .empty

end FileService

end PortRag.Service
