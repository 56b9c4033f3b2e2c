import PortRag.Foundation.Trace
import PortRag.Service.Frames
import PortRag.Service.WebpageWrites
import PortRag.Service.RevisionWrites

set_option autoImplicit false

/-!
# Runs of the service

A run is a trace of writing calls from any processes, each with the cipher of its process;
the ciphers share their key material.  Every state of a run that starts empty is sealed:
each private column stands for something under the binding that the readers use.
-/

namespace PortRag.Service

open PortRag.Foundation PortRag.Db PortRag.Security PortRag.Http PortRag.Ingest PortRag.Webpages
  PortRag.Knowledge

/-- A writing call of a process with this cipher. -/
structure ServiceRequest where
  cipher : PrivateDataCipher
  call : ServiceCall

/-- One step of a run.  The cipher knows nothing of fenced owners, and the metadata of a chunk
is a `dict`. -/
structure Serves (opens : Opens) (db : Database) (request : ServiceRequest)
    (answer : Except Exc ServiceValue) (db' : Database) : Prop where
  uses : request.cipher.Uses opens
  unfenced : ∀ value binding, request.cipher.encrypt value binding ≠ .error .ownerDataErased
  typed : ∀ chunk ∈ request.call.chunks, chunk.metadata.IsDict
  exec : request.call.exec request.cipher.privateData db = ⟨answer, db'⟩

/-- A recorded call: the database before and after it, and its answer. -/
abbrev ServiceStep := Step Database ServiceRequest (Except Exc ServiceValue)

variable {opens : Opens} {cipher : PrivateDataCipher} {db db' : Database}

/-- Every writing call imitates itself on the plaintext: the two answers are the same and so are the
stores behind them, once the columns are revealed, unless the cipher raises. -/
theorem ServiceCall.imitates (huses : cipher.Uses opens)
    (hnever : ∀ value binding, cipher.encrypt value binding ≠ .error .ownerDataErased)
    (h : db.Sealed opens) (c : ServiceCall) (hdict : ∀ chunk ∈ c.chunks, chunk.metadata.IsDict) :
    Imitates opens cipher db (c.exec cipher.privateData db) (c.exec .plain (db.plaintext opens)) := by
  cases c with
  | createDocument documentId now userId knowledgeKey name mime =>
      exact (createProcessingDocument_imitates huses h documentId now userId knowledgeKey name
        mime).map _
  | createWebpage lib documentId now userId knowledgeKey name urls autoSync =>
      exact (createWebpage_imitates huses h lib documentId now userId knowledgeKey name urls
        autoSync).map _
  | enqueue now documentId userId => exact (enqueue_imitates huses h now documentId userId).map _
  | setAutoSync now documentId userId autoSync =>
      exact (setAutoSync_imitates huses h now documentId userId autoSync).map _
  | claimWebpage token now documentId owner =>
      exact (claimCandidate_imitates huses h token now documentId owner).map _
  | finish uuid4 now claim content contentHash chunks embeddings =>
      exact (complete_imitates huses hnever h uuid4 now claim (some content) (some contentHash)
        hdict embeddings none).map _
  | fail now claim error =>
      exact (complete_imitates huses hnever h (fun _ => 0) now claim none none
        (fun _ hc => (by cases hc)) none (some (truncate error 1000))).map _
  | replaceChunks uuid4 now documentId chunks embeddings =>
      exact (replaceChunksAndMarkReady_imitates huses h uuid4 now documentId hdict embeddings).map _
  | markFailed now documentId error =>
      exact (markFailed_imitates huses h now documentId error).map _
  | markStorageUnavailable now documentId =>
      exact (markStorageUnavailable_imitates h now documentId).map _
  | replaceEmbeddings now documentId userId embeddings =>
      exact (replaceEmbeddingsAndMarkReady_imitates h now documentId userId embeddings).map _
  | markReindexFailed now documentId userId error =>
      exact (markReindexFailed_imitates huses h now documentId userId error).map _
  | createRevision uuid4 revisionId now userId selected =>
      exact (createRevision_imitates huses h uuid4 revisionId now userId selected).map _
  | deleteDocument documentId userId => exact (deleteDocument_imitates h documentId userId).map _

theorem Serves.imitates {request : ServiceRequest} {answer : Except Exc ServiceValue}
    (hstep : Serves opens db request answer db') (h : db.Sealed opens) :
    Imitates opens request.cipher db ⟨answer, db'⟩
      (request.call.exec .plain (db.plaintext opens)) := by
  have himitates := request.call.imitates hstep.uses hstep.unfenced h hstep.typed
  rw [hstep.exec] at himitates
  exact himitates

/-- The frame of a step. -/
theorem Serves.frame {request : ServiceRequest} {answer : Except Exc ServiceValue}
    (hstep : Serves opens db request answer db') :
    Framed (request.call.actingFor db) request.call.fresh db db' := by
  have hframe := request.call.frame request.cipher.privateData db
  rw [hstep.exec] at hframe
  exact hframe

theorem Serves.erasedOwners {request : ServiceRequest} {answer : Except Exc ServiceValue}
    (hstep : Serves opens db request answer db') : db'.erasedOwners = db.erasedOwners := by
  rcases hstep.frame with rfl | ⟨owner, -, -, hframe⟩
  · rfl
  · exact hframe.erased

/-- Every state of a run is sealed. -/
theorem sealed_of_run {steps : List ServiceStep} (h : Trace (Serves opens) .empty steps db) :
    db.Sealed opens :=
  h.invariant (I := Database.Sealed opens) Database.sealed_empty
    (fun hsealed hstep => (hstep.imitates hsealed).stays)

/-- No step of a run fences an owner. -/
theorem unfenced_of_run {steps : List ServiceStep} (h : Trace (Serves opens) .empty steps db) :
    db.erasedOwners = [] :=
  h.invariant (I := fun db => db.erasedOwners = []) rfl
    (fun herased hstep => hstep.erasedOwners.trans herased)

/-! ## Runs of fixed calls -/

/-- The call of a request, as a function. -/
def ServiceRequest.exec (request : ServiceRequest) (db : Database) :
    Except Exc ServiceValue × Database :=
  let outcome := request.call.exec request.cipher.privateData db
  (outcome.result, outcome.db)

theorem clearCipher_unfenced (value : Json) (binding : StorageBinding) :
    clearCipher.encrypt value binding ≠ .error .ownerDataErased := by
  unfold clearCipher
  dsimp only
  split <;> simp

/-- The run of these calls with the cipher in the clear. -/
theorem clearRun_trace {calls : List ServiceCall}
    (h : ∀ c ∈ calls, ∀ chunk ∈ c.chunks, chunk.metadata.IsDict) :
    Trace (Serves clearOpens) .empty
      (run ServiceRequest.exec .empty (calls.map (fun c => ⟨clearCipher, c⟩))).1
      (run ServiceRequest.exec .empty (calls.map (fun c => ⟨clearCipher, c⟩))).2 := by
  apply run_trace
  intro request hrequest db
  obtain ⟨c, hc, rfl⟩ := List.mem_map.mp hrequest
  exact ⟨clearCipher_uses, clearCipher_unfenced, h c hc, rfl⟩

end PortRag.Service
