import PortRag.Ingest.Endings
import PortRag.Service.FileDocuments

set_option autoImplicit false

/-!
# Runs as steps

A run of `ingest` takes its job from the queue along points, by steps of the job on the databases
that its calls find; so does a call of `reindex` with its request.  The steps write what the run
commits, and the job is queued again exactly when the worker schedules a retry.
-/

namespace PortRag.Service

open PortRag.Foundation PortRag.Db PortRag.Security PortRag.Ingest

/-! ## Paths -/

/-- A path from a point on, each step a given action on the database of the call that its point
stands in front of: the database before and after each step, and where the last one leads. -/
inductive PointPath {P A : Type} (Given : P → A → Prop)
    (act : Database → P → A → Option (Option P × Database)) (call : P → Nat)
    (world : Nat → Database) : P → List (Database × Database) → Option P → Prop where
  | last {p : P} {action : A} {next : Option P} {db' : Database}
      (h : act (world (call p)) p action = some (next, db')) (hgiven : Given p action) :
      PointPath Given act call world p [(world (call p), db')] next
  | step {p q : P} {action : A} {db' : Database} {writes : List (Database × Database)}
      {next : Option P} (h : act (world (call p)) p action = some (some q, db'))
      (hgiven : Given p action) (hrest : PointPath Given act call world q writes next) :
      PointPath Given act call world p ((world (call p), db') :: writes) next

/-- The writes are these commits, apart from those that change nothing. -/
def AreCommits (writes commits : List (Database × Database)) : Prop :=
  (∀ w ∈ commits, w ∈ writes) ∧ ∀ w ∈ writes, w ∈ commits ∨ w.2 = w.1

theorem AreCommits.refl (commits : List (Database × Database)) : AreCommits commits commits :=
  ⟨fun _ hw => hw, fun _ hw => .inl hw⟩

theorem AreCommits.cons_idle {writes commits : List (Database × Database)}
    (h : AreCommits writes commits) (db : Database) : AreCommits ((db, db) :: writes) commits := by
  refine ⟨fun w hw => List.mem_cons_of_mem _ (h.1 w hw), ?_⟩
  intro w hw
  rcases List.mem_cons.mp hw with rfl | hw
  · exact .inr rfl
  · exact h.2 w hw

theorem AreCommits.idle (db : Database) : AreCommits [(db, db)] [] := (refl []).cons_idle db

/-- What refuses a transaction behind an admission check. -/
def refusal (admission : Except Exc Unit) (outage : Option Exc) : Option Exc :=
  match admission with
  | .error e => some e
  | .ok _ => outage

section Attempts

variable {α : Type} {db : Database} {outage : Option Exc} {t : Except Exc (α × Database)}

theorem attempt_refusal (admission : Except Exc Unit) (o : Outcome α) :
    (attempt db (refusal admission outage) o).result =
      admission >>= fun _ => (attempt db outage o).result := by
  cases admission <;> rfl

theorem attempt_ok {o : Outcome α} {a : α} (h : (attempt db outage o).result = .ok a) :
    attempt db outage o = o := by
  cases outage with
  | some e => cases h
  | none => rfl

theorem attempt_rollback {e : Exc}
    (h : (attempt db outage (Outcome.ofTransaction db t)).result = .error e) :
    (attempt db outage (Outcome.ofTransaction db t)).db = db := by
  cases outage with
  | some e => rfl
  | none =>
      have ht : t = .error e := Outcome.error_of_result h
      subst ht
      rfl

/-- What a transaction writes, when `commits` are its commits. -/
theorem areCommits_attempt {commits : List (Database × Database)}
    (hok : ∀ a, (attempt db outage (Outcome.ofTransaction db t)).result = .ok a →
      commits = [(db, (Outcome.ofTransaction db t).db)])
    (herror : ∀ e, (attempt db outage (Outcome.ofTransaction db t)).result = .error e →
      commits = []) :
    AreCommits [(db, (attempt db outage (Outcome.ofTransaction db t)).db)] commits := by
  cases hresult : (attempt db outage (Outcome.ofTransaction db t)).result with
  | error e =>
      rw [herror e hresult, attempt_rollback hresult]
      exact .idle db
  | ok a =>
      rw [hok a hresult, attempt_ok hresult]
      exact .refl _

end Attempts

/-! ## Ingest -/

section Ingest

variable {env : IngestEnv} {job : IngestJob}

theorem ask_attempt {α : Type} (env : IngestEnv) (k : Nat) (f : Database → Outcome α) :
    env.ask k (fun db => (f db).result) =
      (attempt (env.world k) (env.outage k) (f (env.world k))).result := by
  unfold IngestEnv.ask attempt
  cases env.outage k <;> rfl

theorem areCommits_committed {α : Type} (env : IngestEnv) (k : Nat)
    (t : Database → Except Exc (α × Database)) :
    AreCommits [(env.world k, (attempt (env.world k) (env.outage k)
        (Outcome.ofTransaction (env.world k) (t (env.world k)))).db)]
      (env.committed k fun db => Outcome.ofTransaction db (t db)) := by
  have hask := ask_attempt env k fun db => Outcome.ofTransaction db (t db)
  exact areCommits_attempt (fun a hresult => (committed_ok (hask.trans hresult)).2)
    (fun e hresult => committed_error (hask.trans hresult))

theorem areCommits_marked (env : IngestEnv) (job : IngestJob)
    (t : Database → Except Exc (Unit × Database)) :
    AreCommits [(env.world 8, (attempt (env.world 8)
        (refusal (env.admission 7 job.userId) (env.outage 8))
        (Outcome.ofTransaction (env.world 8) (t (env.world 8)))).db)]
      (marked env job fun db => Outcome.ofTransaction db (t db)) := by
  unfold marked
  cases env.admission 7 job.userId with
  | error e => exact .idle _
  | ok _ => exact areCommits_committed env 8 t

/-- A step of this job. -/
def jobActs (job : IngestJob) (db : Database) (p : IngestPoint) (action : IngestAction) :
    Option (Option IngestPoint × Database) :=
  IngestTask.act db ⟨job, p⟩ action

/-- What the run does to its job: it prepares what it has read, and uses its own cipher, its own
identifiers and its own clock. -/
def JobGiven (env : IngestEnv) (job : IngestJob) (_ : IngestPoint) : IngestAction → Prop
  | .prepare prepared => prepared = prepare env job
  | .publish cipher uuid4 now _ => cipher = env.cipher ∧ uuid4 = env.uuid4 ∧ now = env.now
  | .mark cipher now _ => cipher = env.cipher ∧ now = env.now
  | _ => False

/-- The call of the run behind each point.  A preparation changes nothing: its step stands on the
first of its calls.  The publication is call 6, and a mark is call 8, behind its admission check. -/
def ingestCall : IngestPoint → Nat
  | .created => 0
  | .queued => 0
  | .prepared .. => 6
  | .unavailable => 8
  | .failing _ => 8

/-- Where the worker has the job after a run: it schedules a retry, or is through with it. -/
def afterRun (result : Except Exc Unit) : Option IngestPoint :=
  if isRetryable result then some .queued else none

/-- From `p` on, the run of `ingest` is a path. -/
def Finishes (env : IngestEnv) (job : IngestJob) (p : IngestPoint) : Prop :=
  ∃ writes, PointPath (JobGiven env job) (jobActs job) ingestCall env.world p writes
      (afterRun (ingest env job).result) ∧ AreCommits writes (commits env job)

theorem published_error {e : Exc} (hbody : ingestBody env job = .error e) :
    published env job = [] := by
  unfold published
  rcases bind_eq_error.mp hbody with hprepared | ⟨prepared, hprepared, hask⟩
  · rw [hprepared]
  · rw [hprepared]
    exact committed_error hask

/-- In front of a mark, which is the last step. -/
theorem finishes_marked {p : IngestPoint} (hcall : ingestCall p = 8) (leads : Except Exc Unit → Option IngestPoint)
    (t : Database → Except Exc (Unit × Database))
    (hact : ∀ outage, jobActs job (env.world 8) p (.mark env.cipher env.now outage) =
      some (leads (attempt (env.world 8) outage
        (Outcome.ofTransaction (env.world 8) (t (env.world 8)))).result,
        (attempt (env.world 8) outage (Outcome.ofTransaction (env.world 8) (t (env.world 8)))).db))
    (hnext : leads (env.admission 7 job.userId >>= fun _ =>
      env.ask 8 fun db => (Outcome.ofTransaction db (t db)).result) =
        afterRun (ingest env job).result)
    (hcommits : commits env job = marked env job fun db => Outcome.ofTransaction db (t db)) :
    Finishes env job p := by
  have hlast := hact (refusal (env.admission 7 job.userId) (env.outage 8))
  rw [attempt_refusal, ← ask_attempt env 8 fun db => Outcome.ofTransaction db (t db), hnext]
    at hlast
  rw [Finishes, hcommits]
  refine ⟨_, ?_, areCommits_marked env job t⟩
  rw [← hcall] at hlast ⊢
  exact .last hlast ⟨rfl, rfl⟩

theorem finishes_unavailable (hend : ingest env job = onUnavailable env job)
    (hcommits : commits env job = marked env job fun db =>
      markStorageUnavailable env.now db job.documentId) : Finishes env job .unavailable := by
  refine finishes_marked rfl IngestPoint.afterUnavailable
    (fun db => markStorageUnavailableTransaction env.now db job.documentId) (fun _ => rfl) ?_
    hcommits
  rw [hend]
  unfold onUnavailable markStorageUnavailable
  generalize (env.admission 7 job.userId >>= fun _ => env.ask 8 fun db => (Outcome.ofTransaction db
    (markStorageUnavailableTransaction env.now db job.documentId)).result) = answer
  cases answer with
  | ok _ => rfl
  | error e => cases e <;> rfl

theorem finishes_failing {e : Exc} (hend : ingest env job = onFailure env job e)
    (hcommits : commits env job = marked env job fun db =>
      markFailed env.cipher.privateData env.now db job.documentId e.message) :
    Finishes env job (.failing e) := by
  refine finishes_marked rfl IngestPoint.afterFailure
    (fun db => markFailedTransaction env.cipher.privateData env.now db job.documentId e.message)
    (fun _ => rfl) ?_ hcommits
  rw [hend]
  unfold onFailure markFailed
  generalize (env.admission 7 job.userId >>= fun _ => env.ask 8 fun db => (Outcome.ofTransaction db
    (markFailedTransaction env.cipher.privateData env.now db job.documentId e.message)).result) =
      answer
  cases answer with
  | ok _ => rfl
  | error e => cases e <;> rfl

/-- The body has raised, by a step that has changed nothing.  What is left is what the handler does
with the exception, and the worker with the result. -/
theorem finishes_after {e : Exc} (hbody : ingestBody env job = .error e) {p : IngestPoint}
    {action : IngestAction} (hact : jobActs job (env.world (ingestCall p)) p action =
      some (IngestPoint.afterError e, env.world (ingestCall p)))
    (hgiven : JobGiven env job p action) : Finishes env job p := by
  have hpublished := published_error hbody
  have hrest : ∀ {q}, IngestPoint.afterError e = some q → Finishes env job q →
      Finishes env job p := by
    rintro q hq ⟨writes, hpath, hwrites⟩
    rw [hq] at hact
    exact ⟨_, .step hact hgiven hpath, hwrites.cons_idle _⟩
  have hthrough : IngestPoint.afterError e = none → afterRun (ingest env job).result = none →
      commits env job = [] → Finishes env job p := by
    intro he hnext hcommits
    rw [he] at hact
    rw [Finishes, hnext, hcommits]
    exact ⟨_, .last hact hgiven, .idle _⟩
  cases e with
  | ownerDataErased =>
      refine hthrough rfl ?_ ?_
      · unfold ingest
        rw [hbody]
        rfl
      · unfold commits
        rw [hpublished, hbody]
        rfl
  | cancelled =>
      refine hthrough rfl ?_ ?_
      · unfold ingest
        rw [hbody]
        rfl
      · unfold commits
        rw [hpublished, hbody]
        rfl
  | privateDataUnavailable =>
      refine hrest rfl (finishes_unavailable ?_ ?_)
      · unfold ingest
        rw [hbody]
      · unfold commits
        rw [hpublished, hbody]
        rfl
  | _ =>
      refine hrest rfl (finishes_failing ?_ ?_)
      · unfold ingest
        rw [hbody]
      · unfold commits
        rw [hpublished, hbody]
        rfl

/-- A run of `ingest` is a path of its job from the queue on: each of its steps is a step of the
job's machine, on the database that the corresponding call finds, and the writes along the path are
the commits of the run.  So what holds of every interleaving of such steps holds of the code. -/
theorem ingest_path (env : IngestEnv) (job : IngestJob) : Finishes env job .queued := by
  have hprepare : jobActs job (env.world 0) .queued (.prepare (prepare env job)) =
      some (IngestPoint.afterPreparation (prepare env job), env.world 0) := rfl
  cases hprepared : prepare env job with
  | error e =>
      rw [hprepared] at hprepare
      have hbody : ingestBody env job = .error e := by
        unfold ingestBody
        rw [hprepared]
        rfl
      exact finishes_after hbody hprepare hprepared.symm
  | ok prepared =>
      rw [hprepared] at hprepare
      suffices hrest : Finishes env job (.prepared prepared.1 prepared.2) by
        obtain ⟨writes, hpath, hwrites⟩ := hrest
        exact ⟨_, .step hprepare hprepared.symm hpath, hwrites.cons_idle _⟩
      obtain ⟨o, ho⟩ : ∃ o, attempt (env.world 6) (env.outage 6) (replaceChunksAndMarkReady
          env.cipher.privateData env.uuid4 env.now (env.world 6) job.documentId prepared.1
          prepared.2) = o := ⟨_, rfl⟩
      have hpublish : jobActs job (env.world 6) (.prepared prepared.1 prepared.2)
          (.publish env.cipher env.uuid4 env.now (env.outage 6)) =
            some (IngestPoint.afterPublication o.result, o.db) := by
        rw [← ho]
        rfl
      have hbody : ingestBody env job = o.result := by
        unfold ingestBody
        rw [hprepared, ← ho]
        exact ask_attempt env 6 fun db => replaceChunksAndMarkReady env.cipher.privateData env.uuid4
          env.now db job.documentId prepared.1 prepared.2
      cases hresult : o.result with
      | error e =>
          have hdb : o.db = env.world 6 := by
            rw [← ho] at hresult ⊢
            exact attempt_rollback hresult
          rw [hresult, hdb] at hpublish
          exact finishes_after (hbody.trans hresult) hpublish ⟨rfl, rfl, rfl⟩
      | ok _ =>
          rw [hresult] at hbody hpublish
          have hnext : afterRun (ingest env job).result = none := by
            unfold ingest
            rw [hbody]
            rfl
          have hcommits : commits env job = env.committed 6 fun db => replaceChunksAndMarkReady
              env.cipher.privateData env.uuid4 env.now db job.documentId prepared.1 prepared.2 := by
            unfold commits published
            rw [hprepared, hbody]
            exact List.append_nil _
          rw [Finishes, hnext, hcommits]
          refine ⟨_, .last hpublish ⟨rfl, rfl, rfl⟩, ?_⟩
          rw [← ho]
          exact areCommits_committed env 6 _

end Ingest

/-! ## Reindex -/

section Reindex

variable {env : ReindexEnv} {id documentId userId : Uuid}

theorem reindex_ask_attempt {α : Type} (env : ReindexEnv) (k : Nat) (f : Database → Outcome α) :
    env.ask k (fun db => (f db).result) =
      (attempt (env.world k) (env.outage k) (f (env.world k))).result := by
  unfold ReindexEnv.ask attempt
  cases env.outage k <;> rfl

theorem reindex_areCommits (env : ReindexEnv) (k : Nat)
    (t : Database → Except Exc (Bool × Database)) :
    AreCommits [(env.world k, (attempt (env.world k) (env.outage k)
        (Outcome.ofTransaction (env.world k) (t (env.world k)))).db)]
      (env.committed k fun db => Outcome.ofTransaction db (t db)) := by
  have hask := reindex_ask_attempt env k fun db => Outcome.ofTransaction db (t db)
  exact areCommits_attempt (fun a hresult => (reindex_committed_ok (hask.trans hresult)).2)
    (fun e hresult => reindex_committed_error (hask.trans hresult))

/-- A step of this request. -/
def requestActs (id documentId userId : Uuid) (db : Database) (p : ReindexPoint)
    (action : ReindexAction) : Option (Option ReindexPoint × Database) :=
  ReindexTask.act db ⟨id, documentId, userId, p⟩ action

/-- What the call does to its request: it uses its own cipher and its own clock, and vectors only as
the embedder has returned them for the texts that were read. -/
def RequestGiven (env : ReindexEnv) (p : ReindexPoint) : ReindexAction → Prop
  | .read cipher _ => cipher = env.cipher
  | .embed answer => ∀ chunks embeddings, p = .read chunks → answer = .ok embeddings →
      env.embed (chunks.map IngestChunk.text) = .ok embeddings
  | .store now _ => now = env.now
  | .mark cipher now _ => cipher = env.cipher ∧ now = env.now
  | .quit => False

/-- The call of the database behind each point.  The vectors change nothing: their step stands on
the admission check behind them. -/
def reindexCall : ReindexPoint → Nat
  | .requested => 1
  | .read _ => 3
  | .embedded _ => 4
  | .failing _ => 5

/-- From `p` on, the call of `reindex` is a path to its answer. -/
def Answers (env : ReindexEnv) (id documentId userId : Uuid) (p : ReindexPoint) : Prop :=
  ∃ writes, PointPath (RequestGiven env) (requestActs id documentId userId) reindexCall env.world p
      writes none ∧ AreCommits writes (reindexCommits env documentId userId)

/-- A step that has changed nothing, and the rest. -/
theorem Answers.step {p q : ReindexPoint} {action : ReindexAction}
    (h : Answers env id documentId userId q)
    (hact : requestActs id documentId userId (env.world (reindexCall p)) p action =
      some (some q, env.world (reindexCall p)))
    (hgiven : RequestGiven env p action) : Answers env id documentId userId p := by
  obtain ⟨writes, hpath, hwrites⟩ := h
  exact ⟨_, .step hact hgiven hpath, hwrites.cons_idle _⟩

/-- What `reembed` raises, the body does. -/
theorem reindexBody_raises {e : Exc} (h : reembed env documentId userId = .error e) :
    reindexBody env documentId userId = .error e := by
  unfold reindexBody
  rw [h]
  rfl

theorem answers_failing {e : Exc} (hcommits : reindexCommits env documentId userId =
      env.committed 5 (storeFailure env documentId userId e)) :
    Answers env id documentId userId (.failing e) := by
  have hact : requestActs id documentId userId (env.world 5) (.failing e)
      (.mark env.cipher env.now (env.outage 5)) = some (none, (attempt (env.world 5) (env.outage 5)
        (markReindexFailed env.cipher.privateData env.now (env.world 5) documentId userId
          e.message)).db) := rfl
  rw [Answers, hcommits]
  exact ⟨_, .last hact ⟨rfl, rfl⟩, reindex_areCommits env 5 _⟩

/-- The body has raised, by a step that has changed nothing. -/
theorem answers_after {e : Exc} (hbody : reindexBody env documentId userId = .error e)
    {p : ReindexPoint} {action : ReindexAction}
    (hact : requestActs id documentId userId (env.world (reindexCall p)) p action =
      some (ReindexPoint.afterError e, env.world (reindexCall p))) (hgiven : RequestGiven env p action) :
    Answers env id documentId userId p := by
  have hcommits := reindexBody_error hbody
  cases e with
  | ownerDataErased =>
      rw [Answers, hcommits]
      exact ⟨_, .last hact hgiven, .idle _⟩
  | cancelled =>
      rw [Answers, hcommits]
      exact ⟨_, .last hact hgiven, .idle _⟩
  | _ => exact (answers_failing hcommits).step hact hgiven

/-- From the embeddings on: the last transaction, or the handler where it raises. -/
theorem answers_embedded {chunks : List IngestChunk} {embeddings : List Embedding}
    (hprepared : reembed env documentId userId =
      env.admission 3 userId >>= fun _ => pure (some (chunks, embeddings))) :
    Answers env id documentId userId (.embedded embeddings) := by
  obtain ⟨o, ho⟩ : ∃ o, attempt (env.world 4) (refusal (env.admission 3 userId) (env.outage 4))
      (replaceEmbeddingsAndMarkReady env.now (env.world 4) documentId userId embeddings) = o :=
    ⟨_, rfl⟩
  have hact : requestActs id documentId userId (env.world 4) (.embedded embeddings)
      (.store env.now (refusal (env.admission 3 userId) (env.outage 4))) =
        some (ReindexPoint.afterStore o.result, o.db) := by
    rw [← ho]
    rfl
  have hbody : reindexBody env documentId userId = o.result := by
    rw [← ho, attempt_refusal, ← reindex_ask_attempt env 4 fun db =>
      replaceEmbeddingsAndMarkReady env.now db documentId userId embeddings]
    unfold reindexBody
    rw [hprepared]
    cases env.admission 3 userId <;> rfl
  cases hresult : o.result with
  | error e =>
      have hdb : o.db = env.world 4 := by
        rw [← ho] at hresult ⊢
        exact attempt_rollback hresult
      rw [hresult, hdb] at hact
      exact answers_after (hbody.trans hresult) hact rfl
  | ok answer =>
      rw [hresult] at hbody hact
      cases hadmission : env.admission 3 userId with
      | error e =>
          rw [← ho, hadmission] at hresult
          cases hresult
      | ok _ =>
          rw [hadmission] at hprepared ho
          have hcommits : reindexCommits env documentId userId =
              env.committed 4 (storeEmbeddings env documentId userId embeddings) := by
            unfold reindexCommits
            rw [hprepared, hbody]
            exact List.append_nil _
          rw [Answers, hcommits]
          refine ⟨_, .last hact rfl, ?_⟩
          rw [← ho]
          exact reindex_areCommits env 4 _

/-- From the chunks on: the embedder is asked and its answer is counted, or the handler is next. -/
theorem answers_read {chunks : List IngestChunk} (hread : reembed env documentId userId = (do
      env.admission 2 userId
      let embeddings ← env.embed (chunks.map IngestChunk.text)
      if embeddings.length ≠ chunks.length then
        .error (.valueError ("embedder returned " ++ toString embeddings.length ++
          " embeddings for " ++ toString chunks.length ++ " chunks"))
      else do
        env.admission 3 userId
        pure (some (chunks, embeddings)))) :
    Answers env id documentId userId (.read chunks) := by
  have hact : ∀ answer, requestActs id documentId userId (env.world 3) (.read chunks)
      (.embed answer) = some (ReindexPoint.afterEmbedding chunks answer, env.world 3) :=
    fun _ => rfl
  have hraised : ∀ e, RequestGiven env (.read chunks) (.embed (.error e)) := by
    intro e _ embeddings _ hanswer
    cases hanswer
  cases hadmission : env.admission 2 userId with
  | error e =>
      rw [hadmission] at hread
      exact answers_after (reindexBody_raises hread) (hact (.error e)) (hraised e)
  | ok _ =>
      rw [hadmission] at hread
      cases hembed : env.embed (chunks.map IngestChunk.text) with
      | error e =>
          rw [hembed] at hread
          exact answers_after (reindexBody_raises hread) (hact (.error e)) (hraised e)
      | ok embeddings =>
          rw [hembed] at hread
          have hreturned : RequestGiven env (.read chunks) (.embed (.ok embeddings)) := by
            rintro _ _ ⟨⟩ ⟨⟩
            exact hembed
          have hmoved := hact (.ok embeddings)
          unfold ReindexPoint.afterEmbedding at hmoved
          dsimp only at hmoved
          by_cases hlength : embeddings.length ≠ chunks.length
          · rw [if_pos hlength] at hmoved
            have hraises := hread.trans (if_pos hlength)
            exact answers_after (reindexBody_raises hraises) hmoved hreturned
          · rw [if_neg hlength] at hmoved
            exact (answers_embedded (hread.trans (if_neg hlength))).step hmoved hreturned

/-- A call of `reindex` is a path of its request, in the same sense: its steps stand on the
databases that its calls find, and the writes along the path are its commits. -/
theorem reindex_path (env : ReindexEnv) (id documentId userId : Uuid) :
    Answers env id documentId userId .requested := by
  have hact : requestActs id documentId userId (env.world 1) .requested
      (.read env.cipher (refusal (env.admission 0 userId) (env.outage 1))) =
        some (ReindexPoint.afterRead (env.admission 0 userId >>= fun _ => env.ask 1 fun db =>
          getChunksForReindex env.cipher.privateData db documentId userId), env.world 1) := by
    unfold requestActs ReindexEnv.ask
    cases env.admission 0 userId <;> cases env.outage 1 <;> rfl
  have hreembed : reembed env documentId userId = reembed env documentId userId := rfl
  conv_rhs at hreembed => unfold reembed
  cases hadmission : env.admission 0 userId with
  | error e =>
      rw [hadmission] at hact hreembed
      exact answers_after (reindexBody_raises hreembed) hact rfl
  | ok _ =>
      rw [hadmission] at hact hreembed
      cases hask : env.ask 1 fun db =>
          getChunksForReindex env.cipher.privateData db documentId userId with
      | error e =>
          rw [hask] at hact hreembed
          exact answers_after (reindexBody_raises hreembed) hact rfl
      | ok found =>
          rw [hask] at hact hreembed
          cases found with
          | none =>
              have hbody : reindexBody env documentId userId = .ok false := by
                unfold reindexBody
                rw [hreembed]
                rfl
              have hcommits : reindexCommits env documentId userId = [] := by
                unfold reindexCommits
                rw [hreembed, hbody]
                rfl
              rw [Answers, hcommits]
              exact ⟨_, .last hact rfl, .idle _⟩
          | some chunks =>
              by_cases hempty : chunks.isEmpty = true
              · have hmoved := hact.trans (congrArg (fun next => some (next, _)) (if_pos hempty))
                exact answers_after (reindexBody_raises (hreembed.trans (if_pos hempty))) hmoved rfl
              · have hmoved := hact.trans (congrArg (fun next => some (next, _)) (if_neg hempty))
                exact (answers_read (hreembed.trans (if_neg hempty))).step hmoved rfl

end Reindex

end PortRag.Service
