import Mathlib.Logic.Basic
import PortRag.Ingest.Retries

set_option autoImplicit false

/-!
# How a run ends

Whatever the steps of a run of `ingest` answer, the run either settles its document and gives
the staged original up, or asks for a retry and keeps it.  What the run commits is recorded with
the database before and after each commit.
-/

namespace PortRag.Ingest

open PortRag.Foundation PortRag.Db PortRag.Security

/-! ## The commits of a run -/

/-- What call number `k`, a transaction, commits: the database before and after. -/
def IngestEnv.committed {α : Type} (env : IngestEnv) (k : Nat) (f : Database → Outcome α) :
    List (Database × Database) :=
  match env.ask k (fun db => (f db).result) with
  | .ok _ => [(env.world k, (f (env.world k)).db)]
  | .error _ => []

/-- The publication, once everything is prepared. -/
def published (env : IngestEnv) (job : IngestJob) : List (Database × Database) :=
  match prepare env job with
  | .ok prepared => env.committed 6 (fun db => replaceChunksAndMarkReady env.cipher.privateData
      env.uuid4 env.now db job.documentId prepared.1 prepared.2)
  | .error _ => []

/-- A mark of the failure handlers, behind their admission check. -/
def marked (env : IngestEnv) (job : IngestJob) (f : Database → Outcome Unit) :
    List (Database × Database) :=
  match env.admission 7 job.userId with
  | .ok _ => env.committed 8 f
  | .error _ => []

/-- What a run commits. -/
def commits (env : IngestEnv) (job : IngestJob) : List (Database × Database) :=
  published env job ++
    match ingestBody env job with
    | .ok _ => []
    | .error .ownerDataErased => []
    | .error .cancelled => []
    | .error .privateDataUnavailable =>
        marked env job (fun db => markStorageUnavailable env.now db job.documentId)
    | .error e => marked env job (fun db =>
        markFailed env.cipher.privateData env.now db job.documentId e.message)

/-! ## The two ends -/

/-- The run has published: the document is ready, and its chunks are those that the chunker cut
from what the parser made of the staged original, with the embeddings that the embedder answered
for their texts. -/
def EndsReady (opens : Opens) (env : IngestEnv) (job : IngestJob) : Prop :=
  ∃ chunks embeddings after d, prepare env job = .ok (chunks, embeddings) ∧
    Prepared env job chunks embeddings ∧
    commits env job = [(env.world 6, after)] ∧ after.document? job.documentId = some d ∧
    d.status = .ready ∧ d.error = none ∧
    RowsStand opens d.userId.str job.documentId chunks embeddings (after.chunksOf job.documentId)

/-- The run has recorded a failure and has changed no chunk. -/
def EndsFailed (env : IngestEnv) (job : IngestJob) : Prop :=
  ∃ after d, commits env job = [(env.world 8, after)] ∧
    after.document? job.documentId = some d ∧ d.status = .failed ∧ d.error.isSome = true ∧
    after.chunks = (env.world 8).chunks

/-- At call `k` the owner is erased. -/
def Fenced (env : IngestEnv) (job : IngestJob) (k : Nat) : Prop :=
  job.userId ∈ (env.world k).erasedOwners ∨
    ∃ d, (env.world k).document? job.documentId = some d ∧ d.userId ∈ (env.world k).erasedOwners

/-- No step other than the admission checks and the look-up of the document raises `e`. -/
structure Never (e : Exc) (env : IngestEnv) (job : IngestJob) : Prop where
  calls : ∀ k, env.outage k ≠ some e
  reading : readStaged env.lib env.cipher env.volatile job env.file ≠ .error e
  parse : ∀ content, env.parse content ≠ .error e
  chunk : ∀ parsed, env.chunk parsed ≠ .error e
  embed : ∀ texts, env.embed texts ≠ .error e
  encrypt : ∀ value binding, env.cipher.encrypt value binding ≠ .error e

/-- The run has left the database alone because a step reported the owner as erased; and the
owner is erased, unless a step that cannot know it reported so. -/
def EndsErased (env : IngestEnv) (job : IngestJob) : Prop :=
  commits env job = [] ∧ (Never .ownerDataErased env job → ∃ k, Fenced env job k)

/-- The run returns, the staged original is gone, and the document is settled. -/
def Returned (opens : Opens) (env : IngestEnv) (job : IngestJob) : Prop :=
  (ingest env job).result = .ok () ∧ (ingest env job).kept = false ∧
    (EndsReady opens env job ∨ EndsFailed env job ∨ EndsErased env job)

/-- The run asks for a retry, the staged original is intact, and no chunk is changed. -/
def Retried (env : IngestEnv) (job : IngestJob) : Prop :=
  isRetryable (ingest env job).result = true ∧ (ingest env job).kept = true ∧
    (commits env job = [] ∨ EndsFailed env job)

/-! ## What the steps raise -/

section Steps

variable {env : IngestEnv} {job : IngestJob} {e : Exc}

theorem committed_ok {α : Type} {k : Nat} {f : Database → Outcome α} {a : α}
    (h : env.ask k (fun db => (f db).result) = .ok a) :
    (f (env.world k)).result = .ok a ∧
      env.committed k f = [(env.world k, (f (env.world k)).db)] := by
  refine ⟨?_, ?_⟩
  · unfold IngestEnv.ask at h
    split at h
    · cases h
    · exact h
  · unfold IngestEnv.committed
    rw [h]

theorem committed_error {α : Type} {k : Nat} {f : Database → Outcome α}
    (h : env.ask k (fun db => (f db).result) = .error e) : env.committed k f = [] := by
  unfold IngestEnv.committed
  rw [h]

theorem ask_error {α : Type} {k : Nat} {f : Database → Except Exc α} (hnever : Never e env job)
    (h : env.ask k f = .error e) : f (env.world k) = .error e := by
  unfold IngestEnv.ask at h
  split at h
  · next e' houtage =>
      cases h
      exact absurd houtage (hnever.calls k)
  · exact h

theorem lockActiveOwner_error {db : Database} {userId : Uuid}
    (h : lockActiveOwner db userId = .error e) : e = .ownerDataErased ∧ userId ∈ db.erasedOwners := by
  unfold lockActiveOwner at h
  split at h
  · next herased =>
      cases h
      exact ⟨rfl, herased⟩
  · cases h

theorem admission_error {k : Nat} (hnever : Never e env job)
    (h : env.admission k job.userId = .error e) : e = .ownerDataErased ∧ Fenced env job k := by
  obtain ⟨he, herased⟩ := lockActiveOwner_error (ask_error hnever h)
  exact ⟨he, .inl herased⟩

/-- An exception that the modelled functions themselves do not raise. -/
def Foreign (e : Exc) : Prop :=
  (∀ message, e ≠ .valueError message) ∧ ∀ diag cause, e ≠ .integrityError diag cause

theorem requireDocument_error {k : Nat} (hforeign : Foreign e)
    (h : requireDocument (env.world k) job.documentId = .error e) :
    e = .ownerDataErased ∧ Fenced env job k := by
  rcases requireDocument_cases (env.world k) job.documentId with
    ⟨-, hr⟩ | ⟨d, hd, herased, hr⟩ | ⟨d, -, -, hr⟩
  · rw [hr] at h
    exact absurd (Except.error.inj h).symm (hforeign.1 _)
  · rw [hr] at h
    exact ⟨(Except.error.inj h).symm, .inr ⟨d, hd, herased⟩⟩
  · rw [hr] at h
    cases h

/-- The preparation raises what its steps raise: an exception that none of them raises is the report
that the owner is erased, and then he is fenced. -/
theorem prepare_error (hnever : Never e env job) (hforeign : Foreign e)
    (h : prepare env job = .error e) : e = .ownerDataErased ∧ ∃ k, Fenced env job k := by
  have hadmission : ∀ k, env.admission k job.userId = .error e →
      e = .ownerDataErased ∧ ∃ k, Fenced env job k := by
    intro k hk
    obtain ⟨he, hfenced⟩ := admission_error hnever hk
    exact ⟨he, k, hfenced⟩
  rcases bind_eq_error.mp h with h | ⟨_, -, h⟩
  · exact hadmission 0 h
  rcases bind_eq_error.mp h with h | ⟨_, -, h⟩
  · exact hadmission 1 h
  rcases bind_eq_error.mp h with h | ⟨content, -, h⟩
  · exact absurd h hnever.reading
  rcases bind_eq_error.mp h with h | ⟨_, -, h⟩
  · exact hadmission 2 h
  rcases bind_eq_error.mp h with h | ⟨parsed, -, h⟩
  · exact absurd h (hnever.parse content)
  rcases bind_eq_error.mp h with h | ⟨_, -, h⟩
  · exact hadmission 3 h
  rcases bind_eq_error.mp h with h | ⟨chunks, -, h⟩
  · exact absurd h (hnever.chunk parsed)
  split at h
  · exact absurd (Except.error.inj h).symm (hforeign.1 _)
  rcases bind_eq_error.mp h with h | ⟨_, -, h⟩
  · exact hadmission 4 h
  rcases bind_eq_error.mp h with h | ⟨embeddings, -, h⟩
  · exact absurd h (hnever.embed _)
  split at h
  · exact absurd (Except.error.inj h).symm (hforeign.1 _)
  rcases bind_eq_error.mp h with h | ⟨_, -, h⟩
  · exact hadmission 5 h
  · cases h

theorem chunkRow_ne_error (hnever : Never e env job) {owner : String} {documentId rowId : Uuid}
    {chunk : IngestChunk} {embedding : Embedding} :
    chunkRow env.cipher.privateData owner documentId rowId chunk embedding ≠ .error e := by
  intro h
  rcases bind_eq_error.mp h with h | ⟨_, -, h⟩
  · exact hnever.encrypt _ _ h
  rcases bind_eq_error.mp h with h | ⟨_, -, h⟩
  · change Security.encryptJson env.cipher _ _ = _ at h
    unfold Security.encryptJson at h
    split at h
    · next herror => exact hnever.encrypt _ _ ((Except.error.inj h) ▸ herror)
    · cases h
  · cases h

/-- The publication raises what its steps raise. -/
theorem publish_error (hnever : Never e env job) (hforeign : Foreign e)
    {prepared : List IngestChunk × List Embedding}
    (h : env.ask 6 (fun db => (replaceChunksAndMarkReady env.cipher.privateData env.uuid4 env.now db
      job.documentId prepared.1 prepared.2).result) = .error e) :
    e = .ownerDataErased ∧ ∃ k, Fenced env job k := by
  rcases bind_eq_error.mp (Outcome.error_of_result (ask_error hnever h)) with h | ⟨d, -, h⟩
  · obtain ⟨he, hfenced⟩ := requireDocument_error hforeign h
    exact ⟨he, 6, hfenced⟩
  rcases bind_eq_error.mp h with h | ⟨rows, -, h⟩
  · rcases bind_eq_error.mp h with h | ⟨_, -, h⟩
    · obtain ⟨z, -, h⟩ := exists_of_mapM_eq_error h
      exact absurd h (chunkRow_ne_error hnever)
    · split at h
      · cases h
      · exact absurd (Except.error.inj h).symm (hforeign.1 _)
  rcases bind_eq_error.mp h with h | ⟨_, -, h⟩
  · unfold Database.insertChunks at h
    split at h
    · exact absurd (Except.error.inj h).symm (hforeign.2 _ _)
    · split at h
      · cases h
      · exact absurd (Except.error.inj h).symm (hforeign.2 _ _)
  · cases h

/-- The body of a run raises what its steps raise. -/
theorem ingestBody_error (hnever : Never e env job) (hforeign : Foreign e)
    (h : ingestBody env job = .error e) : e = .ownerDataErased ∧ ∃ k, Fenced env job k := by
  rcases bind_eq_error.mp h with h | ⟨prepared, -, h⟩
  · exact prepare_error hnever hforeign h
  · exact publish_error hnever hforeign h

/-- A call that marks the document, once its owner is admitted. -/
def mark (env : IngestEnv) (job : IngestJob) (f : Database → Outcome Unit) : Except Exc Unit := do
  env.admission 7 job.userId
  env.ask 8 (fun db => (f db).result)

theorem mark_error {f : Database → Outcome Unit} (hnever : Never e env job)
    (hf : (f (env.world 8)).result = .error e → e = .ownerDataErased ∧ Fenced env job 8)
    (h : mark env job f = .error e) : e = .ownerDataErased ∧ ∃ k, Fenced env job k := by
  rcases bind_eq_error.mp h with h | ⟨_, -, h⟩
  · obtain ⟨he, hfenced⟩ := admission_error hnever h
    exact ⟨he, 7, hfenced⟩
  · obtain ⟨he, hfenced⟩ := hf (ask_error hnever h)
    exact ⟨he, 8, hfenced⟩

/-- A mark commits exactly when it succeeds. -/
theorem marked_cases (f : Database → Outcome Unit) :
    (mark env job f = .ok () ∧ (f (env.world 8)).result = .ok () ∧
        marked env job f = [(env.world 8, (f (env.world 8)).db)]) ∨
      ∃ e, mark env job f = .error e ∧ marked env job f = [] := by
  unfold mark marked
  cases hadmission : env.admission 7 job.userId with
  | error e => exact .inr ⟨e, rfl, rfl⟩
  | ok _ =>
      cases hask : env.ask 8 (fun db => (f db).result) with
      | error e =>
          exact .inr ⟨e, rfl, committed_error hask⟩
      | ok _ =>
          obtain ⟨hresult, hcommitted⟩ := committed_ok hask
          exact .inl ⟨rfl, hresult, hcommitted⟩

theorem markStorageUnavailable_error (hforeign : Foreign e) (now : Time)
    (h : (markStorageUnavailable now (env.world 8) job.documentId).result = .error e) :
    e = .ownerDataErased ∧ Fenced env job 8 := by
  rcases bind_eq_error.mp (Outcome.error_of_result h) with h | ⟨d, -, h⟩
  · exact requireDocument_error hforeign h
  · cases h

theorem markFailed_error (hnever : Never e env job) (hforeign : Foreign e) (now : Time)
    (message : String) (h : (markFailed env.cipher.privateData now (env.world 8) job.documentId
      message).result = .error e) : e = .ownerDataErased ∧ Fenced env job 8 := by
  rcases bind_eq_error.mp (Outcome.error_of_result h) with h | ⟨d, -, h⟩
  · exact requireDocument_error hforeign h
  rcases bind_eq_error.mp h with h | ⟨stored, -, h⟩
  · exact absurd h (hnever.encrypt _ _)
  · cases h

/-- A settled document is the one that was found, with its new status and error. -/
theorem document?_settled {db : Database} {id : Uuid} {d : Document} (hd : db.document? id = some d)
    (status : DocumentStatus) (error : Option String) (now : Time) :
    (db.updateDocument (settledDocument d status error now)).document? id =
      some (settledDocument d status error now) := by
  have hdid : d.id = id := Database.document?_id hd
  have hid : (settledDocument d status error now).id = id := hdid
  have hold : db.document? (settledDocument d status error now).id = some d := by rw [hid, hd]
  rw [Database.document?_updateDocument hold, if_pos hid.symm]

/-- What either mark leaves. -/
theorem markStorageUnavailable_marks {now : Time} {db : Database} {id : Uuid}
    (h : (markStorageUnavailable now db id).result = .ok ()) :
    ∃ d, (markStorageUnavailable now db id).db.document? id = some d ∧ d.status = .failed ∧
      d.error.isSome = true ∧ (markStorageUnavailable now db id).db.chunks = db.chunks := by
  obtain ⟨d, hrequire, h⟩ := bind_eq_ok.mp (Outcome.ok_of_result h)
  have hdb := congrArg Prod.snd (pure_eq_ok.mp h)
  change _ = (markStorageUnavailable now db id).db at hdb
  rw [← hdb]
  exact ⟨_, document?_settled (requireDocument_ok hrequire).1 _ _ _, rfl, rfl, rfl⟩

theorem markFailed_marks {pd : PrivateData} {now : Time} {db : Database} {id : Uuid}
    {message : String} (h : (markFailed pd now db id message).result = .ok ()) :
    ∃ d, (markFailed pd now db id message).db.document? id = some d ∧ d.status = .failed ∧
      d.error.isSome = true ∧ (markFailed pd now db id message).db.chunks = db.chunks := by
  obtain ⟨d, hrequire, h⟩ := bind_eq_ok.mp (Outcome.ok_of_result h)
  obtain ⟨stored, -, h⟩ := bind_eq_ok.mp h
  have hdb := congrArg Prod.snd (pure_eq_ok.mp h)
  change _ = (markFailed pd now db id message).db at hdb
  rw [← hdb]
  exact ⟨_, document?_settled (requireDocument_ok hrequire).1 _ _ _, rfl, rfl, rfl⟩

/-- What a publication leaves. -/
theorem replaceChunksAndMarkReady_marks {opens : Opens} {cipher : PrivateDataCipher}
    (huses : cipher.Uses opens) {uuid4 : Nat → Uuid} {now : Time} {db : Database} {id : Uuid}
    {chunks : List IngestChunk} {embeddings : List Embedding}
    (h : (replaceChunksAndMarkReady cipher.privateData uuid4 now db id chunks embeddings).result =
      .ok ()) :
    ∃ d, (replaceChunksAndMarkReady cipher.privateData uuid4 now db id chunks
        embeddings).db.document? id = some d ∧ d.status = .ready ∧ d.error = none ∧
      RowsStand opens d.userId.str id chunks embeddings ((replaceChunksAndMarkReady
        cipher.privateData uuid4 now db id chunks embeddings).db.chunksOf id) := by
  obtain ⟨d, hrequire, h⟩ := bind_eq_ok.mp (Outcome.ok_of_result h)
  obtain ⟨rows, hrows, h⟩ := bind_eq_ok.mp h
  obtain ⟨mid, hinserted, h⟩ := bind_eq_ok.mp h
  have hdb := congrArg Prod.snd (pure_eq_ok.mp h)
  change _ = (replaceChunksAndMarkReady cipher.privateData uuid4 now db id chunks embeddings).db
    at hdb
  have hstand := chunkRows_stand huses hrows
  obtain ⟨t, ht, hfk, rfl⟩ := Database.insertChunks_ok hinserted
  have hd : ((db.deleteChunks id).withChunks t rows ht hfk).document? id = some d :=
    (requireDocument_ok hrequire).1
  rw [← hdb]
  refine ⟨_, document?_settled hd _ _ _, rfl, rfl, ?_⟩
  have hbelong : rows.filter (fun c => c.documentId = id) = rows :=
    List.filter_eq_self.mpr fun row hrow => by simpa using hstand.documentId_of_mem row hrow
  rw [Database.chunksOf_updateDocument, Database.chunksOf_withChunks,
    Database.chunksOf_deleteChunks, if_pos rfl, List.nil_append, hbelong]
  exact hstand

/-! ## The handlers -/

theorem foreign_cancelled : Foreign .cancelled := ⟨by simp, by simp⟩

theorem foreign_erased : Foreign .ownerDataErased := ⟨by simp, by simp⟩

/-- The handler of `PrivateDataUnavailable`, by its mark. -/
theorem onUnavailable_eq (env : IngestEnv) (job : IngestJob) : onUnavailable env job =
    match mark env job (fun db => markStorageUnavailable env.now db job.documentId) with
    | .error .ownerDataErased => ⟨.ok (), false⟩
    | .error .cancelled => ⟨.error .cancelled, true⟩
    | _ => ⟨.error (.retryableIngest "storage_encryption_unavailable"), true⟩ := rfl

/-- The handler of every other exception, by its mark. -/
theorem onFailure_eq (env : IngestEnv) (job : IngestJob) (e : Exc) : onFailure env job e =
    match mark env job (fun db =>
      markFailed env.cipher.privateData env.now db job.documentId e.message) with
    | .ok _ => ⟨.ok (), false⟩
    | .error .ownerDataErased => ⟨.ok (), false⟩
    | .error .cancelled => ⟨.error .cancelled, false⟩
    | .error _ => ⟨.error (.retryableIngest "failure_status_unavailable"), true⟩ := rfl

/-- Nothing is published in a run whose body fails. -/
theorem published_nil (h : ingestBody env job = .error e) : published env job = [] := by
  unfold published
  rcases bind_eq_error.mp h with hprepare | ⟨prepared, hprepare, hask⟩
  · rw [hprepare]
  · rw [hprepare]
    exact committed_error hask

/-- After a `PrivateDataUnavailable`: the handler marks the document and asks for a retry, unless
the owner turns out to be erased, and then the run returns. -/
theorem unavailable_ends (opens : Opens) (hnever : Never .cancelled env job)
    (hbody : ingestBody env job = .error .privateDataUnavailable) :
    Returned opens env job ∨ Retried env job := by
  have hingest : ingest env job = onUnavailable env job := by
    unfold ingest
    rw [hbody]
  have hcommits : commits env job =
      marked env job (fun db => markStorageUnavailable env.now db job.documentId) := by
    unfold commits
    rw [published_nil hbody, hbody]
    rfl
  rcases @marked_cases env job (fun db => markStorageUnavailable env.now db job.documentId) with
    ⟨hmark, hresult, hmarked⟩ | ⟨e, hmark, hmarked⟩
  · -- the failure is recorded, and the original stays
    obtain ⟨d, hd, hstatus, herror, hchunks⟩ := markStorageUnavailable_marks hresult
    refine .inr ⟨?_, ?_, .inr ⟨_, d, hcommits.trans hmarked, hd, hstatus, herror, hchunks⟩⟩
    · rw [hingest, onUnavailable_eq, hmark]
      rfl
    · rw [hingest, onUnavailable_eq, hmark]
  by_cases herased : e = .ownerDataErased
  · subst herased
    refine .inl ⟨?_, ?_, .inr (.inr ⟨hcommits.trans hmarked, ?_⟩)⟩
    · rw [hingest, onUnavailable_eq, hmark]
    · rw [hingest, onUnavailable_eq, hmark]
    · exact fun hknown => (mark_error hknown (markStorageUnavailable_error foreign_erased _) hmark).2
  · have hlive : e ≠ .cancelled := by
      rintro rfl
      exact herased (mark_error hnever
        (markStorageUnavailable_error foreign_cancelled _) hmark).1
    have hend : onUnavailable env job =
        ⟨.error (.retryableIngest "storage_encryption_unavailable"), true⟩ := by
      rw [onUnavailable_eq, hmark]
      split
      · next heq => exact absurd (Except.error.inj heq) herased
      · next heq => exact absurd (Except.error.inj heq) hlive
      · rfl
    refine .inr ⟨?_, ?_, .inl (hcommits.trans hmarked)⟩
    · rw [hingest, hend]
      rfl
    · rw [hingest, hend]

/-- After every other exception: the handler records the failure and the run returns, or it finds
the owner erased and the run returns, or the recording fails and the run asks for a retry. -/
theorem failure_ends (opens : Opens) (hnever : Never .cancelled env job)
    (hbody : ingestBody env job = .error e) (herased : e ≠ .ownerDataErased)
    (hlive : e ≠ .cancelled) (hother : e ≠ .privateDataUnavailable) :
    Returned opens env job ∨ Retried env job := by
  have hingest : ingest env job = onFailure env job e := by
    unfold ingest
    rw [hbody]
    cases e <;> first | rfl | contradiction
  have hcommits : commits env job = marked env job (fun db =>
      markFailed env.cipher.privateData env.now db job.documentId e.message) := by
    unfold commits
    rw [published_nil hbody, hbody]
    cases e <;> first | rfl | contradiction
  rcases @marked_cases env job (fun db => markFailed env.cipher.privateData env.now db
    job.documentId e.message) with ⟨hmark, hresult, hmarked⟩ | ⟨e', hmark, hmarked⟩
  · obtain ⟨d, hd, hstatus, herror, hchunks⟩ := markFailed_marks hresult
    refine .inl ⟨?_, ?_, .inr (.inl ⟨_, d, hcommits.trans hmarked, hd, hstatus, herror, hchunks⟩)⟩
    · rw [hingest, onFailure_eq, hmark]
    · rw [hingest, onFailure_eq, hmark]
  by_cases herased' : e' = .ownerDataErased
  · subst herased'
    refine .inl ⟨?_, ?_, .inr (.inr ⟨hcommits.trans hmarked, ?_⟩)⟩
    · rw [hingest, onFailure_eq, hmark]
    · rw [hingest, onFailure_eq, hmark]
    · exact fun hknown => (mark_error hknown (markFailed_error hknown foreign_erased _ _) hmark).2
  · have hlive' : e' ≠ .cancelled := by
      rintro rfl
      exact herased' (mark_error hnever (markFailed_error hnever foreign_cancelled _ _) hmark).1
    have hend : onFailure env job e =
        ⟨.error (.retryableIngest "failure_status_unavailable"), true⟩ := by
      rw [onFailure_eq, hmark]
      split
      · next heq => cases heq
      · next heq => exact absurd (Except.error.inj heq) herased'
      · next heq => exact absurd (Except.error.inj heq) hlive'
      · rfl
    refine .inr ⟨?_, ?_, .inl (hcommits.trans hmarked)⟩
    · rw [hingest, hend]
      rfl
    · rw [hingest, hend]

end Steps

/-- For every run and every combination of outcomes of its steps that does not cancel it, exactly
one of the two ends is reached: the run returns, with its original gone and its document settled, or
it asks for a retry, with its original kept and no chunk changed. -/
theorem ingest_ends (opens : Opens) (env : IngestEnv) (job : IngestJob)
    (huses : env.cipher.Uses opens) (hnever : Never .cancelled env job) :
    Xor (Returned opens env job) (Retried env job) := by
  have hone : ¬(Returned opens env job ∧ Retried env job) := by
    rintro ⟨⟨-, hgone, -⟩, -, hkept, -⟩
    rw [hgone] at hkept
    cases hkept
  have hsome : Returned opens env job ∨ Retried env job := by
    cases hbody : ingestBody env job with
    | ok _ =>
        obtain ⟨prepared, hprepare, hask⟩ := bind_eq_ok.mp hbody
        obtain ⟨hresult, hcommitted⟩ := committed_ok hask
        have hingest : ingest env job = ⟨.ok (), false⟩ := by
          unfold ingest
          rw [hbody]
        have hcommits : commits env job = env.committed 6 (fun db => replaceChunksAndMarkReady
            env.cipher.privateData env.uuid4 env.now db job.documentId prepared.1 prepared.2) := by
          unfold commits published
          rw [hprepare, hbody, List.append_nil]
        obtain ⟨d, hd, hstatus, herror, hrows⟩ := replaceChunksAndMarkReady_marks huses hresult
        refine .inl ⟨by rw [hingest], by rw [hingest], .inl ?_⟩
        exact ⟨prepared.1, prepared.2, _, d, hprepare, prepare_ok hprepare,
          hcommits.trans hcommitted, hd, hstatus, herror, hrows⟩
    | error e =>
        by_cases herased : e = .ownerDataErased
        · subst herased
          have hingest : ingest env job = ⟨.ok (), false⟩ := by
            unfold ingest
            rw [hbody]
          have hcommits : commits env job = [] := by
            unfold commits
            rw [published_nil hbody, hbody]
            rfl
          refine .inl ⟨by rw [hingest], by rw [hingest], .inr (.inr ⟨hcommits, ?_⟩)⟩
          exact fun hknown => (ingestBody_error hknown foreign_erased hbody).2
        by_cases hlive : e = .cancelled
        · subst hlive
          exact absurd (ingestBody_error hnever foreign_cancelled hbody).1 herased
        by_cases hother : e = .privateDataUnavailable
        · subst hother
          exact unavailable_ends opens hnever hbody
        · exact failure_ends opens hnever hbody herased hlive hother
  rcases hsome with h | h
  · exact .inl ⟨h, fun h' => hone ⟨h, h'⟩⟩
  · exact .inr ⟨h, fun h' => hone ⟨h', h⟩⟩

/-! ### A run that publishes -/

/-- The manifest of an empty upload. -/
def emptyManifest : Json := .obj [("count", .num 0), ("bytes", .num 0), ("sha256", .str "")]

/-- The key material in the clear, with a ciphertext of its own for this manifest. -/
def manifestOpens : Opens := fun ciphertext binding =>
  if ciphertext = "vault:v1:" then some emptyManifest else clearOpens ciphertext binding

/-- The cipher in the clear, which decrypts this manifest too. -/
def manifestCipher : PrivateDataCipher where
  encrypt := fun value binding =>
    match clearEncode value with
    | some text => .ok (String.ofList (clearTag binding ++ text))
    | none => .error .privateDataUnavailable
  decrypt := fun ciphertext binding =>
    match manifestOpens ciphertext binding with
    | some value => .ok value
    | none => .error .privateDataUnavailable
  lookup := fun value _ => .ok ("vault:v1:" ++ value)

theorem manifestCipher_uses : manifestCipher.Uses manifestOpens where
  encrypt_prefix := fun h => clearCipher_uses.encrypt_prefix h
  encrypt_opens := by
    intro value binding ciphertext h
    unfold manifestOpens
    rw [if_neg (clearCipher_encrypt_ne h)]
    exact clearCipher_uses.encrypt_opens h
  decrypt_opens := by
    intro value binding ciphertext h
    unfold manifestCipher at h
    dsimp only at h
    split at h
    · next hopens =>
        cases h
        exact hopens
    · cases h
  decrypt_error := by
    intro value binding ciphertext e hopens h
    unfold manifestCipher at h
    dsimp only at h
    rw [hopens] at h
    cases h

/-- A run over an empty upload, from which two chunks are cut. -/
def publishingEnv : IngestEnv where
  Parsed := Unit
  world := fun _ => retriedDatabase
  outage := fun _ => none
  lib :=
    { dumps := fun _ => .error (.other "not in the sample")
      loads := fun _ => .ok (.obj [("manifest", .str "vault:v1:")])
      dumpEnvelope := fun _ _ => ""
      loadEnvelope := fun _ => .error (.valueError "Expecting value")
      sha256 := fun _ => "" }
  cipher := manifestCipher
  volatile := true
  file := ⟨false, some [uploadHeader, [0]]⟩
  parse := fun _ => .ok ()
  chunk := fun _ => .ok [⟨0, "a", .obj []⟩, ⟨1, "b", .obj []⟩]
  embed := fun texts => .ok (texts.map fun _ => [1])
  uuid4 := fun i => Fin.ofNat (2 ^ 128) (3 + i)
  now := 0

theorem publishingEnv_never : Never .cancelled publishingEnv retriedJob where
  calls := fun _ h => by cases h
  reading := by decide +kernel
  parse := fun _ h => by cases h
  chunk := fun _ h => by cases h
  embed := fun _ h => by cases h
  encrypt := by
    intro value binding h
    change manifestCipher.encrypt value binding = _ at h
    unfold manifestCipher at h
    dsimp only at h
    split at h <;> cases h

/-- One of the two ends is reached, and it is the publication. -/
theorem ingest_ends_published :
    Xor (Returned manifestOpens publishingEnv retriedJob) (Retried publishingEnv retriedJob) ∧
      EndsReady manifestOpens publishingEnv retriedJob := by
  have hends := ingest_ends manifestOpens publishingEnv retriedJob manifestCipher_uses
    publishingEnv_never
  have hready : (commits publishingEnv retriedJob).map
      (fun c => (c.2.document? retriedJob.documentId).map (·.status)) = [some .ready] := by
    decide +kernel
  have hfailed : ¬EndsFailed publishingEnv retriedJob := by
    rintro ⟨after, d, hcommits, hd, hstatus, -⟩
    rw [hcommits, List.map_singleton, hd, Option.map_some, hstatus] at hready
    exact absurd hready (by decide)
  have hnone : commits publishingEnv retriedJob ≠ [] := by
    intro hcommits
    rw [hcommits] at hready
    cases hready
  refine ⟨hends, ?_⟩
  rcases hends with ⟨⟨-, -, hend | hend | hend⟩, -⟩ | ⟨⟨-, -, hend⟩, -⟩
  · exact hend
  · exact absurd hend hfailed
  · exact absurd hend.1 hnone
  · rcases hend with hend | hend
    · exact absurd hend hnone
    · exact absurd hend hfailed
end PortRag.Ingest
