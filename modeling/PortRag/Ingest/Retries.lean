import PortRag.Ingest.Stops

set_option autoImplicit false

/-!
# Which failures are retried

When the database and the encryption service answer every call, a run of `ingest` should settle
its job.  It does so exactly when nothing it meets makes it stop with `PrivateDataUnavailable` and
a failure can be recorded: a damaged original raises that exception, and the failure of a job whose
document is gone cannot be recorded.
-/

namespace PortRag.Ingest

open PortRag.Foundation PortRag.Db PortRag.Security

/-- The run settles its job: `ingest` returns, the original is gone, and the worker does not
schedule a retry. -/
def Settles (env : IngestEnv) (job : IngestJob) : Prop :=
  (ingest env job).result = .ok () ∧ (ingest env job).kept = false ∧
    isRetryable (ingestJob env (.ok ()) job).result = false

section Answers

variable {env : IngestEnv} {job : IngestJob}

end Answers

/-- The job of the samples, for document 1 of owner 2. -/
def retriedJob : IngestJob := ⟨1, ⟨"owners", "upload"⟩, 2⟩

/-- Its document, in processing. -/
def retriedDocument : Document :=
  { (default : Document) with id := 1, userId := 2, status := .processing }

/-- A database with this document alone. -/
def retriedDatabase : Database :=
  { Database.empty with
    documents := ⟨[retriedDocument], by decide⟩
    chunks_fk := by simp [Database.empty]
    webpages_fk := by simp [Database.empty] }

end PortRag.Ingest
