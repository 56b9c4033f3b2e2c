import PortRag.Ingest.Pipeline
import PortRag.Foundation.Table
import PortRag.Foundation.TaskQueue
import PortRag.Foundation.Trace

set_option autoImplicit false

/-!
# The ingest worker

`IngestWorker` of `rag/ingest/worker.py` as a step relation: a step is what one of its
coroutines does between two of its awaits, so the steps interleave as the event loop lets
them.  The answers of admission checks and the result of a run of `pipeline.ingest` come with
the steps; the paths whose `unlink` raises during a step come with it too.

The state carries what the code does not: the calls of `enqueue` that still wait for their
admission, the jobs submitted and accepted, those whose run has returned, and the originals
deleted.  Delays, attempt counters and metrics are left out: no decision depends on them.
-/

namespace PortRag.Ingest

open PortRag.Foundation

/-- How far the task of `_ingest_job` is: before its admission under the owner's lock, in
`pipeline.ingest`, or ended. -/
inductive Stage where
  | entering
  | ingesting
  | ended (result : Except Exc Unit)
  deriving DecidableEq

/-- `_active_job` with `_active_task`. -/
structure ActiveJob where
  job : IngestJob
  stage : Stage
  deriving DecidableEq

/-- An entry of `_retry_tasks`, whose key is the document of its job. -/
structure RetryEntry where
  job : IngestJob
  task : Nat
  deriving DecidableEq

/-- The coroutine `retry()` of a task: asleep, or in its call of `enqueue`. -/
structure RetryTask where
  task : Nat
  job : IngestJob
  enqueuing : Bool
  cancelled : Bool
  deriving DecidableEq

/-- The delay of the task with this number is over: its coroutine calls `enqueue`. -/
def RetryTask.awaken (task : Nat) (t : RetryTask) : RetryTask :=
  { t with enqueuing := t.enqueuing || t.task = task }

/-- `task.cancel()` of the task with this number. -/
def RetryTask.cancel (task : Nat) (t : RetryTask) : RetryTask :=
  { t with cancelled := t.cancelled || t.task = task }

/-- How far a call of `erase_user` is: waiting for the retries it has cancelled, for the
active job, or ended. -/
inductive Progress where
  | gathering (tasks : List Nat)
  | draining
  | finished (result : Except Exc Unit)
  deriving DecidableEq

/-- A call of `erase_user`. -/
structure Erasure where
  userId : Uuid
  progress : Progress
  deriving DecidableEq

/-- An erasure that drains a job of this owner ends as the job does: `asyncio.shield` hands
on its result. -/
def Erasure.handed (userId : Uuid) (result : Except Exc Unit) (e : Erasure) : Erasure :=
  if e.userId = userId ∧ e.progress = .draining then { e with progress := .finished result } else e

/-- `_task`: none, running, or done. -/
inductive Loop where
  | absent
  | running
  | done
  deriving DecidableEq

/-- `IngestWorker` with what happens around it: the queue, the loop and the job that it runs, the
retries with their tasks, the erasures under way, and, for what is said of whole runs, the fences
that committed, the jobs submitted, accepted and ingested, and the originals deleted. -/
structure IngestWorker where
  queue : TaskQueue (Option IngestJob)
  loop : Loop
  active : Option ActiveJob
  retries : Foundation.Table Uuid RetryEntry (·.job.documentId)
  tasks : Foundation.Table Nat RetryTask (·.task)
  nextTask : Nat
  erasedOwners : List Uuid
  stopping : Bool
  waiting : List IngestJob
  erasures : List Erasure
  fenced : List Uuid
  submitted : List IngestJob
  accepted : List IngestJob
  ingested : List IngestJob
  deleted : List StagedPath

/-- What happens in one step. -/
inductive WorkerEvent where
  /-- A call of `enqueue` begins. -/
  | enqueue (job : IngestJob)
  /-- Its admission check answers. -/
  | admitted (job : IngestJob) (answer : Except Exc Unit)
  /-- `_run` takes the next entry. -/
  | dequeue
  /-- The admission check of `_ingest_job` answers, or the wait for the owner's lock fails. -/
  | entered (answer : Except Exc Unit)
  /-- `pipeline.ingest` ends. -/
  | ingested (result : Except Exc Unit)
  /-- `_run` resumes after its task has ended. -/
  | resume
  /-- The delay of a retry is over. -/
  | wake (task : Nat)
  /-- The admission check in a retry's call of `enqueue` answers. -/
  | retried (task : Nat) (answer : Except Exc Unit)
  /-- A cancelled retry ends; its `finally` runs only if the coroutine had begun. -/
  | unwound (task : Nat) (begun : Bool)
  /-- `erase_user` runs up to its first await. -/
  | eraseUser (userId : Uuid)
  /-- An erasure goes on after the retries it cancelled have ended. -/
  | gathered (erasure : Nat)
  /-- The fence of an owner commits. -/
  | fence (userId : Uuid)
  | start
  /-- `stop` runs up to its first await. -/
  | stop
  /-- `stop` puts the sentinel. -/
  | sentinel
  /-- `stop` has awaited `_task`. -/
  | stopped
  deriving DecidableEq

/-- What `unlink` raises. -/
def unlinkError : Exc := .other "unlink"

namespace IngestWorker

/-- A worker just made. -/
def initial : IngestWorker where
  queue := .empty
  loop := .absent
  active := none
  retries := .empty
  tasks := .empty
  nextTask := 0
  erasedOwners := []
  stopping := false
  waiting := []
  erasures := []
  fenced := []
  submitted := []
  accepted := []
  ingested := []
  deleted := []

/-- An admission check reports an owner as erased only after the fence; that it lets one pass
may be older than a fence. -/
def mayAnswer (w : IngestWorker) (userId : Uuid) (answer : Except Exc Unit) : Prop :=
  answer = .error .ownerDataErased → userId ∈ w.fenced

instance (w : IngestWorker) (userId : Uuid) (answer : Except Exc Unit) :
    Decidable (w.mayAnswer userId answer) := inferInstanceAs (Decidable (_ → _))

/-- `job.path.unlink(missing_ok=True)`, where it does not raise. -/
def unlink (w : IngestWorker) (path : StagedPath) : IngestWorker :=
  { w with deleted := w.deleted ++ [path] }

/-! ## `enqueue` -/

/-- The rest of `enqueue` once its admission check has answered. -/
def enqueueAnswered (w : IngestWorker) (stuck : List StagedPath) (job : IngestJob)
    (answer : Except Exc Unit) : IngestWorker × Except Exc Unit :=
  let checked : Except Exc Unit := do
    answer
    if job.userId ∈ w.erasedOwners then .error .ownerDataErased
  match checked with
  | .ok _ => ({ w with queue := w.queue.put (some job) }, .ok ())
  | .error .ownerDataErased =>
      if job.path ∈ stuck then (w, .error unlinkError)
      else (w.unlink job.path, .error .ownerDataErased)
  | .error e => (w, .error e)

/-- A call of `enqueue` from outside, from its answer on. -/
def admitted (w : IngestWorker) (stuck : List StagedPath) (job : IngestJob)
    (answer : Except Exc Unit) : IngestWorker :=
  let answered : IngestWorker := { w with waiting := w.waiting.erase job }
  let called := answered.enqueueAnswered stuck job answer
  match called.2 with
  | .ok _ => { called.1 with accepted := called.1.accepted ++ [job] }
  | .error _ => called.1

/-! ## `_run` and `_ingest_job` -/

/-- `_run` takes an entry; the sentinel ends it. -/
def dequeue (w : IngestWorker) : Option IngestWorker :=
  match w.loop, w.active, w.queue.entries with
  | .running, none, some job :: rest =>
      some { w with queue := { w.queue with entries := rest }, active := some ⟨job, .entering⟩ }
  | .running, none, none :: rest => do
      let queue ← ({ w.queue with entries := rest } : TaskQueue (Option IngestJob)).taskDone
      some { w with queue := queue, loop := .done }
  | _, _, _ => none

/-- The `finally` of `_ingest_job`, and the end of its task. -/
def endJob (w : IngestWorker) (stuck : List StagedPath) (job : IngestJob)
    (result : Except Exc Unit) : IngestWorker :=
  let preserveOriginal := isRetryable result
  let ended : IngestWorker × Except Exc Unit :=
    if preserveOriginal then (w, result)
    else if job.path ∈ stuck then (w, .error unlinkError)
    else (w.unlink job.path, result)
  { ended.1 with
    active := some ⟨job, .ended ended.2⟩
    erasures := ended.1.erasures.map (Erasure.handed job.userId ended.2) }

/-- `_ingest_job` from its admission check on. -/
def entered (w : IngestWorker) (stuck : List StagedPath) (job : IngestJob)
    (answer : Except Exc Unit) : IngestWorker :=
  match answer with
  | .ok _ => { w with active := some ⟨job, .ingesting⟩ }
  | .error e => w.endJob stuck job (.error e)

/-- `_ingest_job` from the end of `pipeline.ingest` on. -/
def ranIngest (w : IngestWorker) (stuck : List StagedPath) (job : IngestJob)
    (result : Except Exc Unit) : IngestWorker :=
  match result with
  | .ok _ =>
      let returned : IngestWorker := { w with ingested := w.ingested ++ [job] }
      returned.endJob stuck job (.ok ())
  | .error e => w.endJob stuck job (.error e)

/-- `self._retry_tasks.pop(document_id, None)`. -/
def popRetry (w : IngestWorker) (documentId : Uuid) : IngestWorker :=
  { w with retries := w.retries.keep (fun e => e.job.documentId ≠ documentId) }

/-- `_schedule_retry`.  An `unlink` that raises here escapes the handlers of `_run`. -/
def scheduleRetry (w : IngestWorker) (stuck : List StagedPath) (job : IngestJob) : IngestWorker :=
  if job.userId ∈ w.erasedOwners then
    if job.path ∈ stuck then { w with loop := .done } else w.unlink job.path
  else if w.stopping then w
  else
    { w with
      retries := w.retries.set ⟨job, w.nextTask⟩
      tasks := w.tasks.set ⟨w.nextTask, job, false, false⟩
      nextTask := w.nextTask + 1 }

/-- The handlers of `_run` and its `finally`. -/
def resume (w : IngestWorker) (stuck : List StagedPath) : Option IngestWorker :=
  match w.active with
  | some ⟨job, .ended result⟩ => do
      let queue ← w.queue.taskDone
      let handled :=
        match result with
        | .error (.retryableIngest _) => w.scheduleRetry stuck job
        | .error .cancelled => { w with loop := .done }
        | _ => w
      some { handled with queue := queue, active := none }
  | _ => none

/-! ## The retries' coroutines -/

/-- The end of a retry's coroutine. -/
def endTask (w : IngestWorker) (task : Nat) : IngestWorker :=
  { w with tasks := w.tasks.keep (·.task ≠ task) }

/-- `task.cancel()`, which does nothing to a task that has ended. -/
def cancelTask (w : IngestWorker) (task : Nat) : IngestWorker :=
  { w with tasks := w.tasks.rewrite (RetryTask.cancel task) (fun _ => rfl) }

/-- `retry()` after its delay. -/
def wake (w : IngestWorker) (task : Nat) : Option IngestWorker :=
  match w.tasks.find? task with
  | some ⟨_, job, false, false⟩ =>
      if w.stopping then some ((w.endTask task).popRetry job.documentId)
      else some { w with
        tasks := w.tasks.rewrite (RetryTask.awaken task) (fun _ => rfl) }
  | _ => none

/-- `retry()` after the admission check in its call of `enqueue`.  Whatever that call raises,
the entry is popped. -/
def retried (w : IngestWorker) (stuck : List StagedPath) (task : Nat) (answer : Except Exc Unit) :
    Option IngestWorker :=
  match w.tasks.find? task with
  | some ⟨_, job, true, false⟩ =>
      if w.mayAnswer job.userId answer then
        some (((w.enqueueAnswered stuck job answer).1.endTask task).popRetry job.documentId)
      else none
  | _ => none

/-- The end of a cancelled retry. -/
def unwound (w : IngestWorker) (task : Nat) (begun : Bool) : Option IngestWorker :=
  match w.tasks.find? task with
  | some ⟨_, job, _, true⟩ =>
      if begun then some ((w.endTask task).popRetry job.documentId) else some (w.endTask task)
  | _ => none

/-! ## `erase_user` -/

/-- Whether an entry is put back when `userId` is erased. -/
def keeps (userId : Uuid) : Option IngestJob → Bool
  | none => true
  | some job => job.userId ≠ userId

/-- The paths that the loop over the queued jobs unlinks. -/
def ownedPaths (userId : Uuid) (entries : List (Option IngestJob)) : List StagedPath :=
  (entries.reduceOption.filter (·.userId = userId)).map (·.path)

/-- The loop over the owner's retries, up to the first `unlink` that raises; tells whether it
came to its end. -/
def cancelRetries (stuck : List StagedPath) : List RetryEntry → IngestWorker → IngestWorker × Bool
  | [], w => (w, true)
  | entry :: rest, w =>
      let popped := (w.popRetry entry.job.documentId).cancelTask entry.task
      if entry.job.path ∈ stuck then (popped, false)
      else cancelRetries stuck rest (popped.unlink entry.job.path)

/-- What an erasure does when no cancelled retry is left: it waits for the active job if that
is the owner's.  Awaiting a task that has ended hands on its result at once. -/
def awaitActive (w : IngestWorker) (userId : Uuid) : Progress :=
  match w.active with
  | some ⟨job, stage⟩ =>
      if job.userId = userId then
        match stage with
        | .ended result => .finished result
        | _ => .draining
      else .finished (.ok ())
  | none => .finished (.ok ())

/-- `erase_user` once the queue is rebuilt, up to its first await. -/
def eraseRetries (w : IngestWorker) (stuck : List StagedPath) (userId : Uuid) : IngestWorker :=
  let owned := w.retries.rows.filter (·.job.userId = userId)
  let cancelled := cancelRetries stuck owned w
  let progress : Progress :=
    if !cancelled.2 then .finished (.error unlinkError)
    else if owned.isEmpty then awaitActive cancelled.1 userId
    else .gathering (owned.map (·.task))
  { cancelled.1 with erasures := cancelled.1.erasures ++ [⟨userId, progress⟩] }

/-- `erase_user` up to its first await. -/
def eraseUser (w : IngestWorker) (stuck : List StagedPath) (userId : Uuid) :
    Option IngestWorker := do
  let jobs := w.queue.entries
  let paths := ownedPaths userId jobs
  let marked : IngestWorker := { w with
    erasedOwners := w.erasedOwners.insert userId
    deleted := w.deleted ++ paths.takeWhile (· ∉ stuck) }
  if paths.any (· ∈ stuck) then
    let queue ← TaskQueue.requeue (fun _ => true) jobs w.queue.drained
    some { marked with
      queue := queue
      erasures := w.erasures ++ [⟨userId, .finished (.error unlinkError)⟩] }
  else
    let queue ← TaskQueue.requeue (keeps userId) jobs w.queue.drained
    let rebuilt : IngestWorker := { marked with queue := queue }
    some (rebuilt.eraseRetries stuck userId)

/-- An erasure goes on after `gather` of the retries it cancelled. -/
def gathered (w : IngestWorker) (erasure : Nat) : Option IngestWorker :=
  match w.erasures[erasure]? with
  | some ⟨userId, .gathering tasks⟩ =>
      if ∃ task ∈ tasks, (w.tasks.find? task).isSome then none
      else some { w with erasures := w.erasures.set erasure ⟨userId, w.awaitActive userId⟩ }
  | _ => none

/-! ## Steps -/

/-- One step; `stuck` are the paths whose `unlink` raises in it. -/
def step (w : IngestWorker) (stuck : List StagedPath) : WorkerEvent → Option IngestWorker
  | .enqueue job => some { w with
      waiting := w.waiting ++ [job]
      submitted := w.submitted ++ [job] }
  | .admitted job answer =>
      if job ∈ w.waiting ∧ w.mayAnswer job.userId answer then some (w.admitted stuck job answer)
      else none
  | .dequeue => w.dequeue
  | .entered answer =>
      match w.active with
      | some ⟨job, .entering⟩ =>
          if w.mayAnswer job.userId answer then some (w.entered stuck job answer) else none
      | _ => none
  | .ingested result =>
      match w.active with
      | some ⟨job, .ingesting⟩ =>
          if w.mayAnswer job.userId result then some (w.ranIngest stuck job result) else none
      | _ => none
  | .resume => w.resume stuck
  | .wake task => w.wake task
  | .retried task answer => w.retried stuck task answer
  | .unwound task begun => w.unwound task begun
  | .eraseUser userId => w.eraseUser stuck userId
  | .gathered erasure => w.gathered erasure
  | .fence userId => some { w with fenced := userId :: w.fenced }
  | .start => some { w with
      stopping := false
      loop := .running }
  | .stop =>
      if w.loop = .absent then none
      else some (w.retries.rows.foldl (fun w entry => w.cancelTask entry.task) { w with stopping := true })
  | .sentinel => if w.stopping then some { w with queue := w.queue.put none } else none
  | .stopped => if w.stopping ∧ w.loop = .done then some { w with loop := .absent } else none

/-- The steps as a relation, for runs. -/
def Steps (w : IngestWorker) (call : List StagedPath × WorkerEvent) (_ : Unit)
    (w' : IngestWorker) : Prop :=
  w.step call.1 call.2 = some w'

end IngestWorker

end PortRag.Ingest
