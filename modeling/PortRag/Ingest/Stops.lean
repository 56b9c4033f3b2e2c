import PortRag.Foundation.Simulation
import PortRag.Ingest.StagedLines

set_option autoImplicit false

/-!
# Where a run of `ingest` stops

What the body of `ingest` raises, said of the staged original, of the answers of the parser, the
chunker and the embedder, and of the databases that the run meets, and not of what the body
computes.  While the database answers and the service encrypts, the body raises an exception
exactly where the run stops with it.
-/

namespace PortRag.Ingest

open PortRag.Foundation PortRag.Db PortRag.Security

/-! ## The stages of a run -/

section Stages

variable (env : IngestEnv) (job : IngestJob)

/-- Admission check number `k` of a run finds the owner fenced. -/
def FencedAt (k : Nat) : Prop := job.userId ∈ (env.world k).erasedOwners

/-- The run has read its original. -/
def HasRead (content : Bytes) : Prop :=
  ¬FencedAt env job 0 ∧ ¬FencedAt env job 1 ∧ Intact env job content

/-- The run has parsed what it read. -/
def HasParsed (parsed : env.Parsed) : Prop :=
  ∃ content, HasRead env job content ∧ ¬FencedAt env job 2 ∧ env.parse content = .ok parsed

/-- The run has cut what it parsed into chunks. -/
def HasCut (chunks : List IngestChunk) : Prop :=
  ∃ parsed, HasParsed env job parsed ∧ ¬FencedAt env job 3 ∧ env.chunk parsed = .ok chunks ∧
    chunks ≠ []

/-- The run has an embedding for each of its chunks. -/
def HasEmbedded (chunks : List IngestChunk) (embeddings : List Embedding) : Prop :=
  HasCut env job chunks ∧ ¬FencedAt env job 4 ∧
    env.embed (chunks.map IngestChunk.text) = .ok embeddings ∧ embeddings.length = chunks.length

end Stages

/-- The database answers every call, and the service encrypts. -/
structure Answered (env : IngestEnv) : Prop where
  database : ∀ k, env.outage k = none
  encrypt : ∀ value binding, ∃ ciphertext, env.cipher.encrypt value binding = .ok ciphertext

/-! ## Publication -/

section Publication

variable {env : IngestEnv} {job : IngestJob}

/-- What `_require_document` answers. -/
theorem requireDocument_cases (db : Database) (documentId : Uuid) :
    (db.document? documentId = none ∧ requireDocument db documentId =
        .error (.valueError ("document not found: " ++ documentId.str))) ∨
      (∃ d, db.document? documentId = some d ∧ d.userId ∈ db.erasedOwners ∧
        requireDocument db documentId = .error .ownerDataErased) ∨
      ∃ d, db.document? documentId = some d ∧ d.userId ∉ db.erasedOwners ∧
        requireDocument db documentId = .ok d := by
  unfold requireDocument lockActiveOwner
  cases hfind : db.document? documentId with
  | none => exact .inl ⟨rfl, rfl⟩
  | some d =>
      by_cases herased : d.userId ∈ db.erasedOwners
      · refine .inr (.inl ⟨d, rfl, herased, ?_⟩)
        dsimp only
        rw [if_pos herased]
        rfl
      · refine .inr (.inr ⟨d, rfl, herased, ?_⟩)
        dsimp only
        rw [if_neg herased]
        rfl

end Publication

/-! ## The body of a run -/

/-- The body once it has its chunks. -/
def afterCutting (env : IngestEnv) (job : IngestJob) (chunks : List IngestChunk) :
    Except Exc (List IngestChunk × List Embedding) := do
  env.admission 4 job.userId
  let embeddings ← env.embed (chunks.map IngestChunk.text)
  if embeddings.length ≠ chunks.length then
    .error (.valueError ("embedder returned " ++ toString embeddings.length ++
      " embeddings for " ++ toString chunks.length ++ " chunks"))
  else do
    env.admission 5 job.userId
    pure (chunks, embeddings)

/-- The body once it has parsed the original. -/
def afterParsing (env : IngestEnv) (job : IngestJob) (parsed : env.Parsed) :
    Except Exc (List IngestChunk × List Embedding) := do
  env.admission 3 job.userId
  let chunks ← env.chunk parsed
  if chunks.isEmpty then .error (.valueError "document produced no chunks")
  else afterCutting env job chunks

/-- The body once it has read the original. -/
def afterReading (env : IngestEnv) (job : IngestJob) (content : Bytes) :
    Except Exc (List IngestChunk × List Embedding) := do
  env.admission 2 job.userId
  let parsed ← env.parse content
  afterParsing env job parsed

section Body

variable {env : IngestEnv} {job : IngestJob}

theorem prepare_eq : prepare env job = (do
    env.admission 0 job.userId
    env.admission 1 job.userId
    let content ← readStaged env.lib env.cipher env.volatile job env.file
    afterReading env job content) := rfl

theorem ask_of_answered {α : Type} (h : Answered env) (k : Nat) (f : Database → Except Exc α) :
    env.ask k f = f (env.world k) := by
  unfold IngestEnv.ask
  rw [h.database k]

/-- An admission check goes by the fence of its owner. -/
theorem admission_of_answered (h : Answered env) (k : Nat) :
    (FencedAt env job k ∧ env.admission k job.userId = .error .ownerDataErased) ∨
      (¬FencedAt env job k ∧ env.admission k job.userId = .ok ()) := by
  unfold IngestEnv.admission FencedAt
  rw [ask_of_answered h]
  unfold assertActive lockActiveOwner
  by_cases hfenced : job.userId ∈ (env.world k).erasedOwners
  · rw [if_pos hfenced]
    exact .inl ⟨hfenced, rfl⟩
  · rw [if_neg hfenced]
    exact .inr ⟨hfenced, rfl⟩

theorem admission_of_free (h : Answered env) {k : Nat} (hk : ¬FencedAt env job k) :
    env.admission k job.userId = .ok () := by
  rcases @admission_of_answered env job h k with ⟨hfenced, -⟩ | ⟨-, hok⟩
  · exact absurd hfenced hk
  · exact hok

theorem HasRead.prepare_eq (h : Answered env) {content : Bytes} (hread : HasRead env job content) :
    prepare env job = afterReading env job content := by
  rw [Ingest.prepare_eq, admission_of_free h hread.1, admission_of_free h hread.2.1,
    readStaged_ok_iff.mpr hread.2.2]
  rfl

theorem HasParsed.prepare_eq (h : Answered env) {parsed : env.Parsed}
    (hparsed : HasParsed env job parsed) : prepare env job = afterParsing env job parsed := by
  obtain ⟨content, hread, hfree, hparse⟩ := hparsed
  rw [hread.prepare_eq h]
  unfold afterReading
  rw [admission_of_free h hfree, hparse]
  rfl

theorem HasCut.prepare_eq (h : Answered env) {chunks : List IngestChunk}
    (hcut : HasCut env job chunks) : prepare env job = afterCutting env job chunks := by
  obtain ⟨parsed, hparsed, hfree, hchunk, hne⟩ := hcut
  rw [hparsed.prepare_eq h]
  unfold afterParsing
  rw [admission_of_free h hfree, hchunk]
  exact if_neg (by rwa [List.isEmpty_iff])

theorem HasEmbedded.prepare_eq (h : Answered env) {chunks : List IngestChunk}
    {embeddings : List Embedding} (hembedded : HasEmbedded env job chunks embeddings) :
    prepare env job = (env.admission 5 job.userId >>= fun _ => pure (chunks, embeddings)) := by
  obtain ⟨hcut, hfree, hembed, hlength⟩ := hembedded
  rw [hcut.prepare_eq h]
  unfold afterCutting
  rw [admission_of_free h hfree, hembed]
  exact if_neg (Classical.not_not.mpr hlength)

end Body

end PortRag.Ingest
