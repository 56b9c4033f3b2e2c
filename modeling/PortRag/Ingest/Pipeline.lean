import PortRag.Ingest.Store
import PortRag.Security.OpenBao

set_option autoImplicit false

/-!
# Ingest orchestration

`IngestPipeline.ingest` of `rag/ingest/pipeline.py` with `decrypted_path` of
`rag/ingest/uploads.py`, which it reads its input through, and `IngestWorker._ingest_job`, which
runs it.  The calls of one run are numbered in the order in which the code makes them; what
others commit between two calls shows in the database that the later one meets.
-/

namespace PortRag.Ingest

open PortRag.Foundation PortRag.Db PortRag.Security

/-- `Path`, as far as the staged original is concerned. -/
structure StagedPath where
  directory : String
  name : String
  deriving DecidableEq, Inhabited

/-- `IngestJob`. -/
structure IngestJob where
  documentId : Uuid
  path : StagedPath
  userId : Uuid
  deriving DecidableEq, Inhabited

/-! ## The staged original -/

/-- A staged original as `decrypted_path` finds it: whether its path is a symlink or lies
outside the owner's directory, and the lines that `readline` returns, unless it is gone. -/
structure StagedFile where
  misplaced : Bool
  lines : Option (List Bytes)

/-- `b"port-openbao-upload-v1\n"`. -/
def uploadHeader : Bytes := utf8 "port-openbao-upload-v1\n"

/-- `128 * 1024 * 1024`. -/
def maxUpload : Nat := 128 * 1024 * 1024

/-- The loop over the lines: what it has counted and read, and the manifest, null before its
line. -/
structure Reading where
  count : Nat
  content : Bytes
  manifest : Json

/-- One line of a staged original. -/
def readLine (lib : Encodings) (cipher : PrivateDataCipher) (owner name : String) (r : Reading)
    (line : Bytes) : Except Exc Reading :=
  match r.manifest with
  | .null =>
      if 524288 < line.length then .error .privateDataUnavailable
      else do
        match ← lib.loads line with
        | .obj members =>
            let value := Json.obj members
            match value.get? "manifest" with
            | some encrypted => do
                let ciphertext ← asText encrypted
                let manifest ← cipher.decrypt ciphertext ⟨owner, name, "upload:manifest"⟩
                pure { r with manifest := manifest }
            | none => do
                let encrypted ← item value "ciphertext"
                let ciphertext ← asText encrypted
                let encoded ← cipher.decrypt ciphertext
                  ⟨owner, name, "upload:chunk:" ++ toString r.count⟩
                match encoded with
                | .str text =>
                    if !b64valid text.toList then .error (.valueError "Invalid base64-encoded string")
                    else
                      let chunk := b64decode text.toList
                      if 65536 < chunk.length ∨ b64encode chunk ≠ text.toList ∨
                          maxUpload < r.content.length + chunk.length then
                        .error .privateDataUnavailable
                      else pure { r with count := r.count + 1, content := r.content ++ chunk }
                | _ => .error (.other "argument should be a bytes-like object or ASCII string")
        | _ => .error (.other "indices must be integers or slices")
  | _ => .error .privateDataUnavailable

/-- The last check of `decrypted_path`. -/
def matchesUpload (lib : Encodings) (r : Reading) : Bool :=
  intValue (r.manifest.get? "count") = some (r.count : Int) &&
    intValue (r.manifest.get? "bytes") = some (r.content.length : Int) &&
    match r.manifest.get? "sha256" with
    | some (.str digest) => digest = lib.sha256 r.content
    | _ => false

/-- The reading of a staged original between the two admission checks of `decrypted_path`.
`volatile` tells whether the memory filesystem for parser input is there. -/
def readStaged (lib : Encodings) (cipher : PrivateDataCipher) (volatile : Bool) (job : IngestJob)
    (file : StagedFile) : Except Exc Bytes :=
  if file.misplaced then .error .privateDataUnavailable
  else if !volatile then .error (.other "RAG private parsing requires a memory filesystem")
  else
    match file.lines with
    | none => .error (.other "No such file or directory")
    | some [] => .error .privateDataUnavailable
    | some (header :: lines) =>
        if header ≠ uploadHeader then .error .privateDataUnavailable
        else do
          let r ← lines.foldlM (readLine lib cipher job.userId.str job.path.name) ⟨0, [], .null⟩
          if matchesUpload lib r then pure r.content else .error .privateDataUnavailable

/-! ## One run -/

/-- What one run meets: the database at each of its calls and whether the call fails for want
of it, the staged original, the parser, the chunker and the embedder. -/
structure IngestEnv where
  Parsed : Type
  world : Nat → Database
  outage : Nat → Option Exc
  lib : Encodings
  cipher : PrivateDataCipher
  volatile : Bool
  file : StagedFile
  parse : Bytes → Except Exc Parsed
  chunk : Parsed → Except Exc (List IngestChunk)
  embed : List String → Except Exc (List Embedding)
  uuid4 : Nat → Uuid
  now : Time

namespace IngestEnv

/-- Call number `k` of the database. -/
def ask {α : Type} (env : IngestEnv) (k : Nat) (f : Database → Except Exc α) : Except Exc α :=
  match env.outage k with
  | some e => .error e
  | none => f (env.world k)

/-- `assert_active`, as call number `k`. -/
def admission (env : IngestEnv) (k : Nat) (userId : Uuid) : Except Exc Unit :=
  env.ask k (fun db => assertActive db userId)

end IngestEnv

/-- The run up to the publication: the chunks with their embeddings. -/
def prepare (env : IngestEnv) (job : IngestJob) :
    Except Exc (List IngestChunk × List Embedding) := do
  env.admission 0 job.userId
  env.admission 1 job.userId
  let content ← readStaged env.lib env.cipher env.volatile job env.file
  env.admission 2 job.userId
  let parsed ← env.parse content
  env.admission 3 job.userId
  let chunks ← env.chunk parsed
  if chunks.isEmpty then .error (.valueError "document produced no chunks")
  else do
    env.admission 4 job.userId
    let embeddings ← env.embed (chunks.map IngestChunk.text)
    if embeddings.length ≠ chunks.length then
      .error (.valueError ("embedder returned " ++ toString embeddings.length ++
        " embeddings for " ++ toString chunks.length ++ " chunks"))
    else do
      env.admission 5 job.userId
      pure (chunks, embeddings)

/-- What a run has prepared: the parser was given what the staged original holds, the chunker what
the parser made of it, and the embedder the texts of the chunks, of which there are some, and it
answered with one embedding for each. -/
structure Prepared (env : IngestEnv) (job : IngestJob) (chunks : List IngestChunk)
    (embeddings : List Embedding) : Prop where
  source : ∃ content parsed, readStaged env.lib env.cipher env.volatile job env.file = .ok content ∧
    env.parse content = .ok parsed ∧ env.chunk parsed = .ok chunks
  nonempty : chunks ≠ []
  embedded : env.embed (chunks.map IngestChunk.text) = .ok embeddings
  length : embeddings.length = chunks.length

/-- The run comes to its publication with nothing but what it has prepared in this sense. -/
theorem prepare_ok {env : IngestEnv} {job : IngestJob} {chunks : List IngestChunk}
    {embeddings : List Embedding} (h : prepare env job = .ok (chunks, embeddings)) :
    Prepared env job chunks embeddings := by
  obtain ⟨_, -, h⟩ := bind_eq_ok.mp h
  obtain ⟨_, -, h⟩ := bind_eq_ok.mp h
  obtain ⟨content, hread, h⟩ := bind_eq_ok.mp h
  obtain ⟨_, -, h⟩ := bind_eq_ok.mp h
  obtain ⟨parsed, hparse, h⟩ := bind_eq_ok.mp h
  obtain ⟨_, -, h⟩ := bind_eq_ok.mp h
  obtain ⟨cut, hcut, h⟩ := bind_eq_ok.mp h
  split at h
  · cases h
  next hnonempty =>
    obtain ⟨_, -, h⟩ := bind_eq_ok.mp h
    obtain ⟨vectors, hvectors, h⟩ := bind_eq_ok.mp h
    split at h
    · cases h
    next hlength =>
      obtain ⟨_, -, h⟩ := bind_eq_ok.mp h
      cases pure_eq_ok.mp h
      refine ⟨⟨content, parsed, hread, hparse, hcut⟩, ?_, hvectors, Classical.not_not.mp hlength⟩
      rintro rfl
      exact hnonempty rfl

/-- The body of `ingest`, with the publication as its last call. -/
def ingestBody (env : IngestEnv) (job : IngestJob) : Except Exc Unit := do
  let prepared ← prepare env job
  env.ask 6 (fun db => (replaceChunksAndMarkReady env.cipher.privateData env.uuid4 env.now db
    job.documentId prepared.1 prepared.2).result)

/-- What a run of `ingest` ends with: its result, and whether it has kept the original. -/
structure IngestEnd where
  result : Except Exc Unit
  kept : Bool
  deriving DecidableEq

/-- The handler of `PrivateDataUnavailable`. -/
def onUnavailable (env : IngestEnv) (job : IngestJob) : IngestEnd :=
  let marked := do
    env.admission 7 job.userId
    env.ask 8 (fun db => (markStorageUnavailable env.now db job.documentId).result)
  match marked with
  | .error .ownerDataErased => ⟨.ok (), false⟩
  | .error .cancelled => ⟨.error .cancelled, true⟩
  | _ => ⟨.error (.retryableIngest "storage_encryption_unavailable"), true⟩

/-- The handler of every other exception. -/
def onFailure (env : IngestEnv) (job : IngestJob) (e : Exc) : IngestEnd :=
  let marked := do
    env.admission 7 job.userId
    env.ask 8 (fun db =>
      (markFailed env.cipher.privateData env.now db job.documentId e.message).result)
  match marked with
  | .ok _ => ⟨.ok (), false⟩
  | .error .ownerDataErased => ⟨.ok (), false⟩
  | .error .cancelled => ⟨.error .cancelled, false⟩
  | .error _ => ⟨.error (.retryableIngest "failure_status_unavailable"), true⟩

/-- `IngestPipeline.ingest`.  A cancellation is no `Exception`: no handler sees it. -/
def ingest (env : IngestEnv) (job : IngestJob) : IngestEnd :=
  match ingestBody env job with
  | .ok _ => ⟨.ok (), false⟩
  | .error .ownerDataErased => ⟨.ok (), false⟩
  | .error .cancelled => ⟨.error .cancelled, false⟩
  | .error .privateDataUnavailable => onUnavailable env job
  | .error e => onFailure env job e

/-- Whether a result is a `RetryableIngestError`, after which `_run` schedules a retry. -/
def isRetryable : Except Exc Unit → Bool
  | .error (.retryableIngest _) => true
  | _ => false

/-- `IngestWorker._ingest_job`: `admission` is its own admission check under the owner's
lock.  It removes the original unless the job is to be retried. -/
def ingestJob (env : IngestEnv) (admission : Except Exc Unit) (job : IngestJob) : IngestEnd :=
  match admission with
  | .error e => ⟨.error e, isRetryable (.error e)⟩
  | .ok _ =>
      let ended := ingest env job
      ⟨ended.result, ended.kept && isRetryable ended.result⟩

end PortRag.Ingest
