import Mathlib.Data.List.TakeWhile
import PortRag.Ingest.Worker

set_option autoImplicit false

/-!
# What the worker's operations change

One lemma for each operation, told as an update of the state, and the two invariants that
every result about the worker rests on: the queue is balanced, and every job in it belongs to
the owner of its document and of its path.
-/

namespace PortRag.Ingest

open PortRag.Foundation

namespace IngestWorker

section Operations

variable {w w' : IngestWorker} {stuck : List StagedPath} {job : IngestJob}

/-- A call of `enqueue` puts the job, or raises and removes at most its original. -/
theorem enqueueAnswered_cases (w : IngestWorker) (stuck : List StagedPath) (job : IngestJob)
    (answer : Except Exc Unit) :
    (answer = .ok () ∧ job.userId ∉ w.erasedOwners ∧
      w.enqueueAnswered stuck job answer = ({ w with queue := w.queue.put (some job) }, .ok ())) ∨
    (∃ e, w.enqueueAnswered stuck job answer = (w, .error e) ∧
      (answer = .ok () → job.userId ∈ w.erasedOwners)) ∨
    (w.enqueueAnswered stuck job answer = (w.unlink job.path, .error .ownerDataErased) ∧
      (answer = .error .ownerDataErased ∨ job.userId ∈ w.erasedOwners)) := by
  cases answer with
  | ok _ =>
      by_cases herased : job.userId ∈ w.erasedOwners
      · have hchecked : w.enqueueAnswered stuck job (.ok ()) =
            if job.path ∈ stuck then (w, .error unlinkError)
            else (w.unlink job.path, .error .ownerDataErased) := by
          simp only [enqueueAnswered, bind, Except.bind, if_pos herased]
        rw [hchecked]
        by_cases hstuck : job.path ∈ stuck
        · exact .inr (.inl ⟨unlinkError, if_pos hstuck, fun _ => herased⟩)
        · exact .inr (.inr ⟨if_neg hstuck, .inr herased⟩)
      · refine .inl ⟨rfl, herased, ?_⟩
        simp only [enqueueAnswered, bind, Except.bind, if_neg herased]
        rfl
  | error e =>
      by_cases hgone : e = .ownerDataErased
      · subst hgone
        have hchecked : w.enqueueAnswered stuck job (.error .ownerDataErased) =
            if job.path ∈ stuck then (w, .error unlinkError)
            else (w.unlink job.path, .error .ownerDataErased) := rfl
        rw [hchecked]
        by_cases hstuck : job.path ∈ stuck
        · exact .inr (.inl ⟨unlinkError, if_pos hstuck, fun h => by cases h⟩)
        · exact .inr (.inr ⟨if_neg hstuck, .inl rfl⟩)
      · refine .inr (.inl ⟨e, ?_, fun h => by cases h⟩)
        cases e <;> first | rfl | exact absurd rfl hgone

/-- How the `finally` of `_ingest_job` turns the result of its body into that of the task, and
which originals are deleted after it. -/
structure Ends (stuck : List StagedPath) (w : IngestWorker) (job : IngestJob)
    (result ended : Except Exc Unit) (deleted : List StagedPath) : Prop where
  handed : job.path ∉ stuck → ended = result
  removed : deleted = w.deleted ∨ deleted = w.deleted ++ [job.path]
  kept : isRetryable result → ended = result ∧ deleted = w.deleted

theorem endJob_eq (w : IngestWorker) (stuck : List StagedPath) (job : IngestJob)
    (result : Except Exc Unit) :
    ∃ ended deleted, Ends stuck w job result ended deleted ∧
      w.endJob stuck job result = { w with
        active := some ⟨job, .ended ended⟩
        erasures := w.erasures.map (Erasure.handed job.userId ended)
        deleted := deleted } := by
  by_cases hretry : isRetryable result
  · refine ⟨result, w.deleted, ⟨fun _ => rfl, .inl rfl, fun _ => ⟨rfl, rfl⟩⟩, ?_⟩
    simp only [endJob, if_pos hretry]
  · by_cases hstuck : job.path ∈ stuck
    · refine ⟨.error unlinkError, w.deleted, ⟨fun h => absurd hstuck h, .inl rfl,
        fun h => absurd h hretry⟩, ?_⟩
      simp only [endJob, if_neg hretry, if_pos hstuck]
    · refine ⟨result, w.deleted ++ [job.path], ⟨fun _ => rfl, .inr rfl,
        fun h => absurd h hretry⟩, ?_⟩
      simp only [endJob, if_neg hretry, if_neg hstuck, unlink]

/-- The loop over the owner's retries touches the table, the tasks and the staged files. -/
theorem cancelRetries_frame (stuck : List StagedPath) (entries : List RetryEntry)
    (w : IngestWorker) :
    ∃ retries tasks removed, (cancelRetries stuck entries w).1 = { w with
        retries := retries
        tasks := tasks
        deleted := w.deleted ++ removed } ∧
      (∀ e, e ∈ retries.rows → e ∈ w.retries.rows) ∧
      (∀ t, t ∈ tasks.rows → ∃ t' ∈ w.tasks.rows, t.task = t'.task ∧ t.job = t'.job ∧
        (t = t' ∨ ∃ entry ∈ entries, entry.task = t.task)) ∧
      ∀ path ∈ removed, ∃ entry ∈ entries, entry.job.path = path := by
  induction entries generalizing w with
  | nil =>
      refine ⟨w.retries, w.tasks, [], ?_, fun _ h => h, ?_, fun _ h => by cases h⟩
      · rw [List.append_nil]
        rfl
      · exact fun t ht => ⟨t, ht, rfl, rfl, .inl rfl⟩
  | cons entry rest ih =>
      have hcancel : ∀ t, t ∈ (w.tasks.rewrite (RetryTask.cancel entry.task) (fun _ => rfl)).rows →
          ∃ t' ∈ w.tasks.rows, t.task = t'.task ∧ t.job = t'.job ∧
            (t = t' ∨ entry.task = t.task) := by
        intro t ht
        obtain ⟨t', ht', rfl⟩ := List.mem_map.mp ht
        refine ⟨t', ht', rfl, rfl, ?_⟩
        by_cases hsame : t'.task = entry.task
        · exact .inr hsame.symm
        · exact .inl (by simp [RetryTask.cancel, hsame])
      rw [cancelRetries]
      split
      · refine ⟨(w.popRetry entry.job.documentId).retries, (w.cancelTask entry.task).tasks, [], ?_,
          fun e he => (List.mem_filter.mp he).1, ?_, fun _ h => by cases h⟩
        · rw [List.append_nil]
          rfl
        · intro t ht
          obtain ⟨t', ht', htask, hjob, hsame⟩ := hcancel t ht
          exact ⟨t', ht', htask, hjob, hsame.imp_right (fun h => ⟨entry, List.mem_cons_self, h⟩)⟩
      · obtain ⟨retries, tasks, removed, h, hretries, htasks, hremoved⟩ := ih
          (((w.popRetry entry.job.documentId).cancelTask entry.task).unlink entry.job.path)
        refine ⟨retries, tasks, entry.job.path :: removed, ?_, ?_, ?_, ?_⟩
        · rw [h]
          simp [unlink, cancelTask, popRetry]
        · exact fun e he => (List.mem_filter.mp (hretries e he)).1
        · intro t ht
          obtain ⟨t', ht', htask, hjob, hsame⟩ := htasks t ht
          obtain ⟨t'', ht'', htask', hjob', hsame'⟩ := hcancel t' ht'
          refine ⟨t'', ht'', htask.trans htask', hjob.trans hjob', ?_⟩
          rcases hsame with rfl | ⟨e, he, htask⟩
          · exact hsame'.imp_right (fun h => ⟨entry, List.mem_cons_self, h⟩)
          · exact .inr ⟨e, List.mem_cons_of_mem _ he, htask⟩
        · intro path hpath
          rcases List.mem_cons.mp hpath with rfl | hpath
          · exact ⟨entry, List.mem_cons_self, rfl⟩
          · obtain ⟨e, he, hsame⟩ := hremoved path hpath
            exact ⟨e, List.mem_cons_of_mem _ he, hsame⟩

/-- The loop over the owner's retries when no `unlink` raises. -/
theorem cancelRetries_eq {entries : List RetryEntry}
    (h : ∀ entry ∈ entries, entry.job.path ∉ stuck) (w : IngestWorker) :
    (cancelRetries stuck entries w).2 = true ∧
      (cancelRetries stuck entries w).1.retries = w.retries.keep (fun e =>
        entries.all (fun entry => e.job.documentId ≠ entry.job.documentId)) ∧
      (cancelRetries stuck entries w).1.deleted = w.deleted ++ entries.map (·.job.path) := by
  induction entries generalizing w with
  | nil =>
      refine ⟨rfl, Table.ext ?_, (List.append_nil _).symm⟩
      exact (List.filter_eq_self.mpr (fun _ _ => rfl)).symm
  | cons entry rest ih =>
      rw [cancelRetries, if_neg (h entry List.mem_cons_self)]
      obtain ⟨hends, hretries, hdeleted⟩ := ih (fun e he => h e (List.mem_cons_of_mem _ he))
        (((w.popRetry entry.job.documentId).cancelTask entry.task).unlink entry.job.path)
      refine ⟨hends, hretries.trans (Table.ext ?_), hdeleted.trans ?_⟩
      · show (w.retries.rows.filter _).filter _ = w.retries.rows.filter _
        rw [List.filter_filter]
        apply List.filter_congr
        intro e _
        rw [List.all_cons, Bool.and_comm]
      · show (w.deleted ++ [entry.job.path]) ++ _ = _
        rw [List.append_assoc]
        rfl

/-- `erase_user` once the queue is rebuilt. -/
theorem eraseRetries_frame (w : IngestWorker) (stuck : List StagedPath) (userId : Uuid) :
    ∃ retries tasks removed progress, w.eraseRetries stuck userId = { w with
        retries := retries
        tasks := tasks
        deleted := w.deleted ++ removed
        erasures := w.erasures ++ [⟨userId, progress⟩] } ∧
      (∀ e, e ∈ retries.rows → e ∈ w.retries.rows) ∧
      (∀ t, t ∈ tasks.rows → ∃ t' ∈ w.tasks.rows, t.task = t'.task ∧ t.job = t'.job ∧
        (t = t' ∨ ∃ entry ∈ w.retries.rows, entry.job.userId = userId ∧ entry.task = t.task)) ∧
      ∀ path ∈ removed, ∃ entry ∈ w.retries.rows,
        entry.job.userId = userId ∧ entry.job.path = path := by
  obtain ⟨retries, tasks, removed, h, hretries, htasks, hremoved⟩ :=
    cancelRetries_frame stuck (w.retries.rows.filter (·.job.userId = userId)) w
  have howned : ∀ entry ∈ w.retries.rows.filter (·.job.userId = userId),
      entry ∈ w.retries.rows ∧ entry.job.userId = userId := by
    intro entry hentry
    exact (List.mem_filter.mp hentry).imp_right of_decide_eq_true
  rw [eraseRetries, h]
  refine ⟨retries, tasks, removed, _, rfl, hretries, ?_, ?_⟩
  · intro t ht
    obtain ⟨t', ht', htask, hjob, hsame⟩ := htasks t ht
    refine ⟨t', ht', htask, hjob, hsame.imp_right ?_⟩
    rintro ⟨entry, hentry, hnumber⟩
    exact ⟨entry, (howned entry hentry).1, (howned entry hentry).2, hnumber⟩
  · intro path hpath
    obtain ⟨entry, hentry, hsame⟩ := hremoved path hpath
    exact ⟨entry, (howned entry hentry).1, (howned entry hentry).2, hsame⟩

/-- An `unlink` that raises ends the loop over the owner's retries. -/
theorem cancelRetries_stuck {entries : List RetryEntry}
    (h : ∃ entry ∈ entries, entry.job.path ∈ stuck) (w : IngestWorker) :
    (cancelRetries stuck entries w).2 = false := by
  induction entries generalizing w with
  | nil =>
      obtain ⟨entry, hentry, -⟩ := h
      cases hentry
  | cons first rest ih =>
      rw [cancelRetries]
      split
      · rfl
      · next hfirst =>
          obtain ⟨entry, hentry, hstuck⟩ := h
          rcases List.mem_cons.mp hentry with rfl | hrest
          · exact absurd hstuck hfirst
          · exact ih ⟨entry, hrest, hstuck⟩ _

/-- `erase_user` once the queue is rebuilt, when no `unlink` raises: the owner's retries are
gone from the table and their originals from the disk. -/
theorem eraseRetries_eq {userId : Uuid}
    (h : ∀ entry ∈ w.retries.rows, entry.job.userId = userId → entry.job.path ∉ stuck) :
    ∃ tasks, w.eraseRetries stuck userId = { w with
        retries := w.retries.keep (·.job.userId ≠ userId)
        tasks := tasks
        deleted := w.deleted ++
          (w.retries.rows.filter (·.job.userId = userId)).map (·.job.path)
        erasures := w.erasures ++ [⟨userId,
          if (w.retries.rows.filter (·.job.userId = userId)).isEmpty then w.awaitActive userId
          else .gathering ((w.retries.rows.filter (·.job.userId = userId)).map (·.task))⟩] } := by
  have howned : ∀ entry ∈ w.retries.rows.filter (·.job.userId = userId),
      entry.job.path ∉ stuck := by
    intro entry hentry
    obtain ⟨hmem, howner⟩ := List.mem_filter.mp hentry
    exact h entry hmem (of_decide_eq_true howner)
  obtain ⟨hends, hretries, hdeleted⟩ := cancelRetries_eq howned w
  obtain ⟨retries, tasks, removed, hframe, -⟩ :=
    cancelRetries_frame stuck (w.retries.rows.filter (·.job.userId = userId)) w
  rw [hframe] at hretries hdeleted
  obtain rfl : retries = _ := hretries
  obtain rfl : removed = _ := List.append_cancel_left hdeleted
  have hkeep : w.retries.keep (fun e => (w.retries.rows.filter (·.job.userId = userId)).all
      (fun entry => e.job.documentId ≠ entry.job.documentId)) =
        w.retries.keep (·.job.userId ≠ userId) := by
    refine Table.ext (List.filter_congr fun e he => ?_)
    rw [Bool.eq_iff_iff, List.all_eq_true, decide_eq_true_iff]
    constructor
    · intro hall howner
      have hmem : e ∈ w.retries.rows.filter (·.job.userId = userId) :=
        List.mem_filter.mpr ⟨he, decide_eq_true howner⟩
      exact of_decide_eq_true (hall e hmem) rfl
    · intro hne entry hentry
      obtain ⟨hmem, howner⟩ := List.mem_filter.mp hentry
      refine decide_eq_true fun hkey => hne ?_
      rw [Table.eq_of_key he hmem hkey]
      exact of_decide_eq_true howner
  refine ⟨tasks, ?_⟩
  rw [eraseRetries, hends, hframe, hkeep]
  rfl

theorem stop_eq (entries : List RetryEntry) (w : IngestWorker) :
    ∃ tasks, entries.foldl (fun w entry => w.cancelTask entry.task) w = { w with tasks := tasks } ∧
      ∀ t, t ∈ tasks.rows → ∃ t' ∈ w.tasks.rows, t.task = t'.task ∧ t.job = t'.job := by
  induction entries generalizing w with
  | nil => exact ⟨w.tasks, rfl, fun t ht => ⟨t, ht, rfl, rfl⟩⟩
  | cons entry rest ih =>
      obtain ⟨tasks, h, htasks⟩ := ih (w.cancelTask entry.task)
      refine ⟨tasks, h, fun t ht => ?_⟩
      obtain ⟨t', ht', htask, hjob⟩ := htasks t ht
      obtain ⟨t'', ht'', rfl⟩ := List.mem_map.mp ht'
      exact ⟨t'', ht'', htask, hjob⟩

end Operations

/-! ## What a step does -/

/-- The steps, each with what it checks and the state it leads to. -/
inductive Move (stuck : List StagedPath) (w : IngestWorker) : WorkerEvent → IngestWorker → Prop
  | enqueue (job : IngestJob) : Move stuck w (.enqueue job) { w with
      waiting := w.waiting ++ [job]
      submitted := w.submitted ++ [job] }
  | accepted (job : IngestJob) (hwaiting : job ∈ w.waiting)
      (hkept : job.userId ∉ w.erasedOwners) : Move stuck w (.admitted job (.ok ())) { w with
        waiting := w.waiting.erase job
        queue := w.queue.put (some job)
        accepted := w.accepted ++ [job] }
  | refused (job : IngestJob) (answer : Except Exc Unit) (deleted : List StagedPath)
      (hwaiting : job ∈ w.waiting) (hmay : w.mayAnswer job.userId answer)
      (hdeleted : deleted = w.deleted ∨ deleted = w.deleted ++ [job.path]) :
      Move stuck w (.admitted job answer) { w with
        waiting := w.waiting.erase job
        deleted := deleted }
  | taken (job : IngestJob) (rest : List (Option IngestJob)) (hidle : w.active = none)
      (hentries : w.queue.entries = some job :: rest) : Move stuck w .dequeue { w with
        queue := { w.queue with entries := rest }
        active := some ⟨job, .entering⟩ }
  | closed (rest : List (Option IngestJob)) (queue : TaskQueue (Option IngestJob))
      (hidle : w.active = none) (hentries : w.queue.entries = none :: rest)
      (hdone : ({ w.queue with entries := rest } : TaskQueue (Option IngestJob)).taskDone =
        some queue) : Move stuck w .dequeue { w with
          queue := queue
          loop := .done }
  | entered (job : IngestJob) (hactive : w.active = some ⟨job, .entering⟩) :
      Move stuck w (.entered (.ok ())) { w with active := some ⟨job, .ingesting⟩ }
  | turnedAway (job : IngestJob) (e : Exc) (ended : Except Exc Unit) (deleted : List StagedPath)
      (hactive : w.active = some ⟨job, .entering⟩) (hmay : w.mayAnswer job.userId (.error e))
      (hends : Ends stuck w job (.error e) ended deleted) :
      Move stuck w (.entered (.error e)) { w with
        active := some ⟨job, .ended ended⟩
        erasures := w.erasures.map (Erasure.handed job.userId ended)
        deleted := deleted }
  | returned (job : IngestJob) (ended : Except Exc Unit) (deleted : List StagedPath)
      (hactive : w.active = some ⟨job, .ingesting⟩)
      (hends : Ends stuck w job (.ok ()) ended deleted) :
      Move stuck w (.ingested (.ok ())) { w with
        active := some ⟨job, .ended ended⟩
        erasures := w.erasures.map (Erasure.handed job.userId ended)
        deleted := deleted
        ingested := w.ingested ++ [job] }
  | raised (job : IngestJob) (e : Exc) (ended : Except Exc Unit) (deleted : List StagedPath)
      (hactive : w.active = some ⟨job, .ingesting⟩) (hmay : w.mayAnswer job.userId (.error e))
      (hends : Ends stuck w job (.error e) ended deleted) :
      Move stuck w (.ingested (.error e)) { w with
        active := some ⟨job, .ended ended⟩
        erasures := w.erasures.map (Erasure.handed job.userId ended)
        deleted := deleted }
  | resumed (job : IngestJob) (result : Except Exc Unit) (loop : Loop)
      (deleted : List StagedPath) (queue : TaskQueue (Option IngestJob))
      (hactive : w.active = some ⟨job, .ended result⟩) (hdone : w.queue.taskDone = some queue)
      (hdeleted : deleted = w.deleted ∨
        deleted = w.deleted ++ [job.path] ∧ job.userId ∈ w.erasedOwners)
      (hdropped : isRetryable result → job.userId ∈ w.erasedOwners ∨ w.stopping) :
      Move stuck w .resume { w with
        queue := queue
        active := none
        loop := loop
        deleted := deleted }
  | scheduled (job : IngestJob) (reason : String) (queue : TaskQueue (Option IngestJob))
      (hactive : w.active = some ⟨job, .ended (.error (.retryableIngest reason))⟩)
      (hdone : w.queue.taskDone = some queue) (hkept : job.userId ∉ w.erasedOwners) :
      Move stuck w .resume { w with
        queue := queue
        active := none
        retries := w.retries.set ⟨job, w.nextTask⟩
        tasks := w.tasks.set ⟨w.nextTask, job, false, false⟩
        nextTask := w.nextTask + 1 }
  | woken (task : Nat) (job : IngestJob)
      (htask : w.tasks.find? task = some ⟨task, job, false, false⟩) :
      Move stuck w (.wake task) { w with
        tasks := w.tasks.rewrite (RetryTask.awaken task) (fun _ => rfl) }
  | abandoned (task : Nat) (job : IngestJob)
      (htask : w.tasks.find? task = some ⟨task, job, false, false⟩) (hstopping : w.stopping) :
      Move stuck w (.wake task) ((w.endTask task).popRetry job.documentId)
  | requeued (task : Nat) (job : IngestJob)
      (htask : w.tasks.find? task = some ⟨task, job, true, false⟩)
      (hkept : job.userId ∉ w.erasedOwners) : Move stuck w (.retried task (.ok ()))
        (popRetry (endTask { w with queue := w.queue.put (some job) } task) job.documentId)
  | lost (task : Nat) (job : IngestJob) (answer : Except Exc Unit) (deleted : List StagedPath)
      (htask : w.tasks.find? task = some ⟨task, job, true, false⟩)
      (hmay : w.mayAnswer job.userId answer)
      (hanswer : answer = .ok () → job.userId ∈ w.erasedOwners)
      (hdeleted : deleted = w.deleted ∨ deleted = w.deleted ++ [job.path]) :
      Move stuck w (.retried task answer)
        (popRetry (endTask { w with deleted := deleted } task) job.documentId)
  | unwound (task : Nat) (t : RetryTask) (htask : w.tasks.find? task = some t)
      (hcancelled : t.cancelled) :
      Move stuck w (.unwound task true) ((w.endTask task).popRetry t.job.documentId)
  | unbegun (task : Nat) (t : RetryTask) (htask : w.tasks.find? task = some t)
      (hcancelled : t.cancelled) : Move stuck w (.unwound task false) (w.endTask task)
  | erased (userId : Uuid) (w' : IngestWorker) (h : w.eraseUser stuck userId = some w') :
      Move stuck w (.eraseUser userId) w'
  | gathered (erasure : Nat) (userId : Uuid) (tasks : List Nat)
      (herasure : w.erasures[erasure]? = some ⟨userId, .gathering tasks⟩)
      (hended : ∀ task ∈ tasks, w.tasks.find? task = none) :
      Move stuck w (.gathered erasure) { w with
        erasures := w.erasures.set erasure ⟨userId, w.awaitActive userId⟩ }
  | fence (userId : Uuid) : Move stuck w (.fence userId) { w with fenced := userId :: w.fenced }
  | start : Move stuck w .start { w with
      stopping := false
      loop := .running }
  | stop (tasks : Foundation.Table Nat RetryTask (·.task))
      (htasks : ∀ t, t ∈ tasks.rows → ∃ t' ∈ w.tasks.rows, t.task = t'.task ∧ t.job = t'.job) :
      Move stuck w .stop { w with
        stopping := true
        tasks := tasks }
  | sentinel (hstopping : w.stopping) :
      Move stuck w .sentinel { w with queue := w.queue.put none }
  | stopped (hstopping : w.stopping) : Move stuck w .stopped { w with loop := .absent }

section Inversion

variable {w w' : IngestWorker} {stuck : List StagedPath}

theorem admitted_move {job : IngestJob} {answer : Except Exc Unit} (hwaiting : job ∈ w.waiting)
    (hmay : w.mayAnswer job.userId answer) :
    Move stuck w (.admitted job answer) (w.admitted stuck job answer) := by
  rcases enqueueAnswered_cases { w with waiting := w.waiting.erase job } stuck job answer with
    ⟨rfl, hkept, hcall⟩ | ⟨e, hcall, -⟩ | ⟨hcall, -⟩
  · rw [admitted, hcall]
    exact .accepted job hwaiting hkept
  · rw [admitted, hcall]
    exact .refused job answer w.deleted hwaiting hmay (.inl rfl)
  · rw [admitted, hcall]
    exact .refused job answer (w.deleted ++ [job.path]) hwaiting hmay (.inr rfl)

theorem dequeue_move (h : w.dequeue = some w') : Move stuck w .dequeue w' := by
  unfold dequeue at h
  split at h
  · next job rest _ hidle hentries =>
      cases h
      exact .taken job rest hidle hentries
  · next rest _ hidle hentries =>
      obtain ⟨queue, hdone, h⟩ := Option.bind_eq_some_iff.mp h
      cases h
      exact .closed rest queue hidle hentries hdone
  · cases h

theorem isRetryable_iff {result : Except Exc Unit} :
    isRetryable result ↔ ∃ reason, result = .error (.retryableIngest reason) := by
  constructor
  · intro h
    unfold isRetryable at h
    split at h
    · next reason => exact ⟨reason, rfl⟩
    · cases h
  · rintro ⟨reason, rfl⟩
    rfl

/-- Where `_run` goes on is one of the moves: it takes the next job, it hands the job of its slot
on, or it counts the job as done. -/
theorem resume_move (h : w.resume stuck = some w') : Move stuck w .resume w' := by
  unfold resume at h
  split at h
  · next job result hactive =>
      obtain ⟨queue, hdone, h⟩ := Option.bind_eq_some_iff.mp h
      by_cases hretry : isRetryable result
      · obtain ⟨reason, rfl⟩ := isRetryable_iff.mp hretry
        have hw' : w' = { w.scheduleRetry stuck job with queue := queue, active := none } :=
          (Option.some.inj h).symm
        subst hw'
        unfold scheduleRetry
        split
        · next herased =>
            split
            · exact .resumed job _ .done w.deleted queue hactive hdone (.inl rfl)
                (fun _ => .inl herased)
            · exact .resumed job _ w.loop (w.deleted ++ [job.path]) queue hactive hdone
                (.inr ⟨rfl, herased⟩) (fun _ => .inl herased)
        · next hkept =>
            split
            · next hstopping =>
                exact .resumed job _ w.loop w.deleted queue hactive hdone (.inl rfl)
                  (fun _ => .inr hstopping)
            · exact .scheduled job reason queue hactive hdone hkept
      · have hloop : ∃ loop, w' = { w with queue := queue, active := none, loop := loop } := by
          cases result with
          | ok _ => exact ⟨w.loop, (Option.some.inj h).symm⟩
          | error e =>
              cases e with
              | retryableIngest reason => exact absurd rfl hretry
              | cancelled => exact ⟨.done, (Option.some.inj h).symm⟩
              | _ => exact ⟨w.loop, (Option.some.inj h).symm⟩
        obtain ⟨loop, rfl⟩ := hloop
        exact .resumed job result loop w.deleted queue hactive hdone (.inl rfl)
          (fun hyes => absurd hyes hretry)
  · cases h

theorem retried_move {task : Nat} {answer : Except Exc Unit}
    (h : w.retried stuck task answer = some w') : Move stuck w (.retried task answer) w' := by
  unfold retried at h
  split at h
  · next number job htask =>
      obtain rfl : number = task := (Table.find?_key htask : _)
      split at h
      · next hmay =>
          rcases enqueueAnswered_cases w stuck job answer with
            ⟨rfl, hkept, hcall⟩ | ⟨e, hcall, hanswer⟩ | ⟨hcall, hanswer⟩
          · rw [hcall] at h
            cases h
            exact .requeued number job htask hkept
          · rw [hcall] at h
            cases h
            exact .lost number job answer w.deleted htask hmay hanswer (.inl rfl)
          · rw [hcall] at h
            cases h
            refine .lost number job answer _ htask hmay ?_ (.inr rfl)
            rintro rfl
            exact hanswer.resolve_left (fun hne => by cases hne)
      · cases h
  · cases h

/-- Every step of the worker is one of the moves, which say what becomes of the jobs and leave out
the rest.  The lemmas on jobs are proved of the moves. -/
theorem move_of_step {event : WorkerEvent} (h : w.step stuck event = some w') :
    Move stuck w event w' := by
  cases event with
  | enqueue job => cases h; exact .enqueue job
  | admitted job answer =>
      obtain ⟨⟨hwaiting, hmay⟩, hw'⟩ := Option.ite_none_right_eq_some.mp h
      cases hw'
      exact admitted_move hwaiting hmay
  | dequeue => exact dequeue_move h
  | entered answer =>
      simp only [step] at h
      split at h
      · next job hactive =>
          obtain ⟨hmay, hw'⟩ := Option.ite_none_right_eq_some.mp h
          cases hw'
          cases answer with
          | ok _ => exact .entered job hactive
          | error e =>
              obtain ⟨ended, deleted, hends, hend⟩ := endJob_eq w stuck job (.error e)
              rw [IngestWorker.entered, hend]
              exact .turnedAway job e ended deleted hactive hmay hends
      · cases h
  | ingested result =>
      simp only [step] at h
      split at h
      · next job hactive =>
          obtain ⟨hmay, hw'⟩ := Option.ite_none_right_eq_some.mp h
          cases hw'
          cases result with
          | ok _ =>
              obtain ⟨ended, deleted, hends, hend⟩ :=
                endJob_eq { w with ingested := w.ingested ++ [job] } stuck job (.ok ())
              rw [ranIngest, hend]
              exact .returned job ended deleted hactive ⟨hends.handed, hends.removed, hends.kept⟩
          | error e =>
              obtain ⟨ended, deleted, hends, hend⟩ := endJob_eq w stuck job (.error e)
              rw [ranIngest, hend]
              exact .raised job e ended deleted hactive hmay hends
      · cases h
  | resume => exact resume_move h
  | wake task =>
      simp only [step, wake] at h
      split at h
      · next number job htask =>
          obtain rfl : number = task := (Table.find?_key htask : _)
          split at h
          · next hstopping => cases h; exact .abandoned number job htask hstopping
          · cases h; exact .woken number job htask
      · cases h
  | retried task answer => exact retried_move h
  | unwound task begun =>
      simp only [step, unwound] at h
      split at h
      · next number job enqueuing htask =>
          split at h
          · next hbegun =>
              cases h
              subst hbegun
              exact .unwound task _ htask rfl
          · next hbegun =>
              cases h
              rw [Bool.not_eq_true] at hbegun
              subst hbegun
              exact .unbegun task _ htask rfl
      · cases h
  | eraseUser userId => exact .erased userId w' h
  | gathered erasure =>
      simp only [step, IngestWorker.gathered] at h
      split at h
      · next userId tasks herasure =>
          split at h
          · cases h
          · next hended =>
              cases h
              refine .gathered erasure userId tasks herasure fun task htask => ?_
              by_contra hne
              exact hended ⟨task, htask, Option.isSome_iff_ne_none.mpr hne⟩
      · cases h
  | fence userId => cases h; exact .fence userId
  | start => cases h; exact .start
  | stop =>
      simp only [step] at h
      split at h
      · cases h
      · obtain ⟨tasks, hstop, htasks⟩ := stop_eq w.retries.rows { w with stopping := true }
        rw [hstop] at h
        cases h
        exact .stop tasks htasks
  | sentinel =>
      obtain ⟨hstopping, hw'⟩ := Option.ite_none_right_eq_some.mp h
      cases hw'
      exact .sentinel hstopping
  | stopped =>
      obtain ⟨⟨hstopping, -⟩, hw'⟩ := Option.ite_none_right_eq_some.mp h
      cases hw'
      exact .stopped hstopping

end Inversion

/-! ## The count of unfinished tasks -/

/-- The queue counts its entries and the job in the active slot. -/
def Balanced (w : IngestWorker) : Prop := w.queue.Balanced w.active.toList.length

theorem initial_balanced : initial.Balanced := TaskQueue.balanced_empty

/-- What one step does to the queue: it stays balanced, and its joiners are woken only when
nothing is queued and nothing is processed. -/
structure Counts (w w' : IngestWorker) : Prop where
  balanced : w'.Balanced
  quiet : w'.queue.woken ≠ w.queue.woken → w'.queue.entries = [] ∧ w'.active = none

theorem Counts.of_quiet {w w' : IngestWorker} (h : w'.Balanced) (hquiet : w.queue.Quiet w'.queue) :
    Counts w w' := by
  refine ⟨h, fun hwoken => ?_⟩
  have hzero := hquiet hwoken
  have hcount : w'.queue.unfinished = w'.queue.entries.length + w'.active.toList.length := h
  rw [hzero] at hcount
  refine ⟨List.eq_nil_of_length_eq_zero (by omega), ?_⟩
  cases hactive : w'.active with
  | none => rfl
  | some a =>
      rw [hactive] at hcount
      simp at hcount

/-- A step that leaves queue and active slot as they are. -/
theorem Counts.of_eq {w w' : IngestWorker} (h : w.Balanced) (hqueue : w'.queue = w.queue)
    (hactive : w'.active.isSome = w.active.isSome) : Counts w w' := by
  refine .of_quiet ?_ (TaskQueue.quiet_of_woken (by rw [hqueue]))
  have hlength : w'.active.toList.length = w.active.toList.length := by
    cases ha : w'.active <;> cases hb : w.active <;> simp_all
  show w'.queue.Balanced w'.active.toList.length
  rw [hqueue, hlength]
  exact h

/-- A step that puts one entry. -/
theorem Counts.of_put {w w' : IngestWorker} {entry : Option IngestJob} (h : w.Balanced)
    (hqueue : w'.queue = w.queue.put entry) (hactive : w'.active = w.active) : Counts w w' := by
  refine .of_quiet ?_ (TaskQueue.quiet_of_woken (by rw [hqueue]; rfl))
  show w'.queue.Balanced w'.active.toList.length
  rw [hqueue, hactive]
  exact TaskQueue.Balanced.put h entry

/-- `erase_user` on a balanced queue: it never reports too many tasks done.  If unlinking a
queued original raises, the queue is as before; else it holds the entries that are kept. -/
theorem eraseUser_eq {w : IngestWorker} (h : w.Balanced) (stuck : List StagedPath)
    (userId : Uuid) :
    ∃ queue : TaskQueue (Option IngestJob),
      queue.Balanced w.active.toList.length ∧ w.queue.Quiet queue ∧
      (((∃ path ∈ ownedPaths userId w.queue.entries, path ∈ stuck) ∧
          queue.entries = w.queue.entries ∧
          w.eraseUser stuck userId = some { w with
            queue := queue
            erasedOwners := w.erasedOwners.insert userId
            deleted := w.deleted ++
              (ownedPaths userId w.queue.entries).takeWhile (· ∉ stuck)
            erasures := w.erasures ++ [⟨userId, .finished (.error unlinkError)⟩] }) ∨
        ((∀ path ∈ ownedPaths userId w.queue.entries, path ∉ stuck) ∧
          queue.entries = w.queue.entries.filter (keeps userId) ∧
          w.eraseUser stuck userId = some (eraseRetries { w with
            queue := queue
            erasedOwners := w.erasedOwners.insert userId
            deleted := w.deleted ++ ownedPaths userId w.queue.entries } stuck userId))) := by
  have hdrained := TaskQueue.Balanced.drained h
  by_cases hany : (ownedPaths userId w.queue.entries).any (· ∈ stuck)
  · obtain ⟨queue, hqueue, hentries, hbalanced, hquiet⟩ :=
      @TaskQueue.requeue_eq _ (fun _ => true) _ _ _ hdrained
    refine ⟨queue, hbalanced, hquiet, .inl ⟨?_, ?_, ?_⟩⟩
    · obtain ⟨path, hpath, hstuck⟩ := List.any_eq_true.mp hany
      exact ⟨path, hpath, of_decide_eq_true hstuck⟩
    · simpa [TaskQueue.drained] using hentries
    · simp only [eraseUser, hany, if_true, hqueue, Option.bind_eq_bind, Option.bind_some]
  · obtain ⟨queue, hqueue, hentries, hbalanced, hquiet⟩ :=
      @TaskQueue.requeue_eq _ (keeps userId) _ _ _ hdrained
    have hnone : ∀ path ∈ ownedPaths userId w.queue.entries, path ∉ stuck := by
      intro path hpath hstuck
      exact hany (List.any_eq_true.mpr ⟨path, hpath, decide_eq_true hstuck⟩)
    refine ⟨queue, hbalanced, hquiet, .inr ⟨hnone, ?_, ?_⟩⟩
    · simpa [TaskQueue.drained] using hentries
    · have hall : (ownedPaths userId w.queue.entries).takeWhile (· ∉ stuck) =
          ownedPaths userId w.queue.entries :=
        List.takeWhile_eq_self_iff.mpr (fun path hpath => decide_eq_true (hnone path hpath))
      simp only [eraseUser, hany, hqueue, hall, Option.bind_eq_bind, Option.bind_some]
      rfl

theorem eraseUser_counts {w w' : IngestWorker} {stuck : List StagedPath} {userId : Uuid} (h : w.Balanced)
    (hstep : w.eraseUser stuck userId = some w') : Counts w w' := by
  obtain ⟨queue, hbalanced, hquiet, ⟨-, -, herase⟩ | ⟨-, -, herase⟩⟩ := eraseUser_eq h stuck userId
  · rw [herase] at hstep
    cases hstep
    exact .of_quiet hbalanced hquiet
  · rw [herase] at hstep
    obtain ⟨retries, tasks, removed, progress, hframe, -⟩ := eraseRetries_frame { w with
      queue := queue
      erasedOwners := w.erasedOwners.insert userId
      deleted := w.deleted ++ ownedPaths userId w.queue.entries } stuck userId
    rw [hframe] at hstep
    cases hstep
    exact .of_quiet hbalanced hquiet

/-- Every step keeps the count, and wakes the joiners only when all work is done. -/
theorem step_counts {w w' : IngestWorker} {stuck : List StagedPath} {event : WorkerEvent}
    (h : w.Balanced) (hstep : w.step stuck event = some w') : Counts w w' := by
  cases move_of_step hstep with
  | accepted | requeued | sentinel => exact .of_put h rfl rfl
  | taken job rest hidle hentries =>
      have hbalanced : w.queue.Balanced 0 := by simpa [Balanced, hidle] using h
      exact .of_quiet (hbalanced.taken hentries) (TaskQueue.quiet_of_woken rfl)
  | closed rest queue hidle hentries hdone =>
      have hbalanced : w.queue.Balanced 0 := by simpa [Balanced, hidle] using h
      obtain ⟨queue', hdone', _, hbalanced', hquiet⟩ := (hbalanced.taken hentries).taskDone_eq
      obtain rfl : queue' = queue := Option.some.inj (hdone'.symm.trans hdone)
      refine .of_quiet ?_ hquiet
      simpa [Balanced, hidle] using hbalanced'
  | entered job hactive | turnedAway job _ _ _ hactive | raised job _ _ _ hactive
  | returned job _ _ hactive => exact .of_eq h rfl (by rw [hactive]; rfl)
  | resumed job result loop deleted queue hactive hdone
  | scheduled job reason queue hactive hdone =>
      have hbalanced : w.queue.Balanced 1 := by simpa [Balanced, hactive] using h
      obtain ⟨queue', hdone', _, hbalanced', hquiet⟩ := hbalanced.taskDone_eq
      obtain rfl : queue' = queue := Option.some.inj (hdone'.symm.trans hdone)
      exact .of_quiet hbalanced' hquiet
  | erased userId w' herase => exact eraseUser_counts h herase
  | enqueue | refused | woken | abandoned | lost | unwound | unbegun | gathered | fence | start
  | stop | stopped => exact .of_eq h rfl rfl

/-! ## The jobs a worker holds -/

/-- A job is somewhere in the worker, if only in a task that is about to end. -/
inductive Holds (w : IngestWorker) (job : IngestJob) : Prop
  | waiting (h : job ∈ w.waiting)
  | queued (h : some job ∈ w.queue.entries)
  | active (stage : Stage) (h : w.active = some ⟨job, stage⟩)
  | delayed (entry : RetryEntry) (h : entry ∈ w.retries.rows) (hjob : entry.job = job)
  | task (t : RetryTask) (h : t ∈ w.tasks.rows) (hjob : t.job = job)

/-- What each place of `w'` holds was somewhere in `w`. -/
structure Within (w w' : IngestWorker) : Prop where
  waiting : ∀ job ∈ w'.waiting, w.Holds job
  queue : ∀ job, some job ∈ w'.queue.entries → w.Holds job
  active : ∀ running, w'.active = some running → w.Holds running.job
  retries : ∀ entry ∈ w'.retries.rows, w.Holds entry.job
  tasks : ∀ t ∈ w'.tasks.rows, w.Holds t.job

theorem within_refl (w : IngestWorker) : w.Within w where
  waiting _ h := .waiting h
  queue _ h := .queued h
  active running h := .active running.stage h
  retries entry h := .delayed entry h rfl
  tasks t h := .task t h rfl

theorem Within.holds {w w' : IngestWorker} {job : IngestJob} (h : w.Within w')
    (hjob : w'.Holds job) : w.Holds job := by
  cases hjob with
  | waiting hjob => exact h.waiting job hjob
  | queued hjob => exact h.queue job hjob
  | active stage hjob => exact h.active ⟨job, stage⟩ hjob
  | delayed entry hentry hjob => exact hjob ▸ h.retries entry hentry
  | task t ht hjob => exact hjob ▸ h.tasks t ht

theorem popped_within (w : IngestWorker) (task : Nat) (documentId : Uuid) :
    w.Within ((w.endTask task).popRetry documentId) :=
  { within_refl w with
    retries := fun entry h => .delayed entry (List.mem_filter.mp h).1 rfl
    tasks := fun t h => .task t (List.mem_filter.mp h).1 rfl }

theorem eraseUser_within {w w' : IngestWorker} {stuck : List StagedPath} {userId : Uuid}
    (hbalanced : w.Balanced) (hstep : w.eraseUser stuck userId = some w') : w.Within w' := by
  obtain ⟨queue, -, -, ⟨-, hentries, herase⟩ | ⟨-, hentries, herase⟩⟩ :=
    eraseUser_eq hbalanced stuck userId
  · rw [herase] at hstep
    cases hstep
    exact { within_refl w with queue := fun job h => .queued (hentries ▸ h) }
  · rw [herase] at hstep
    obtain ⟨retries, tasks, removed, progress, hframe, hretries, htasks, -⟩ :=
      eraseRetries_frame { w with
        queue := queue
        erasedOwners := w.erasedOwners.insert userId
        deleted := w.deleted ++ ownedPaths userId w.queue.entries } stuck userId
    rw [hframe] at hstep
    cases hstep
    refine { within_refl w with queue := fun job h => ?_, retries := ?_, tasks := fun t h => ?_ }
    · have hmem : some job ∈ w.queue.entries.filter (keeps userId) := hentries ▸ h
      exact .queued (List.mem_filter.mp hmem).1
    · exact fun entry h => .delayed entry (hretries entry h) rfl
    · obtain ⟨t', ht', -, hjob, -⟩ := htasks t h
      exact .task t' ht' hjob.symm

/-- A step brings in no job but that of a new call of `enqueue`: a job that is anywhere after the
step was somewhere before it. -/
theorem step_within {w w' : IngestWorker} {stuck : List StagedPath} {event : WorkerEvent}
    (hbalanced : w.Balanced) (hstep : w.step stuck event = some w')
    (hnew : ∀ job, event ≠ .enqueue job) : w.Within w' := by
  cases move_of_step hstep with
  | enqueue job => exact absurd rfl (hnew job)
  | accepted job hwaiting =>
      refine { within_refl w with
        waiting := fun _ h => .waiting (List.mem_of_mem_erase h)
        queue := fun other h => ?_ }
      rcases List.mem_append.mp h with hold | hput
      · exact .queued hold
      · cases List.mem_singleton.mp hput
        exact .waiting hwaiting
  | refused =>
      exact { within_refl w with waiting := fun _ h => .waiting (List.mem_of_mem_erase h) }
  | taken job rest hidle hentries =>
      refine { within_refl w with
        queue := fun _ h => .queued (hentries ▸ List.mem_cons_of_mem _ h)
        active := fun running h => ?_ }
      cases h
      exact .queued (hentries ▸ List.mem_cons_self)
  | closed rest queue hidle hentries hdone =>
      refine { within_refl w with queue := fun _ h => .queued ?_ }
      have hqueue : queue.entries = rest := TaskQueue.taskDone_entries hdone
      rw [hentries]
      exact List.mem_cons_of_mem _ (hqueue ▸ h)
  | entered job hactive | turnedAway job _ _ _ hactive | raised job _ _ _ hactive
  | returned job _ _ hactive =>
      refine { within_refl w with active := fun running h => ?_ }
      cases h
      exact .active _ hactive
  | resumed job result loop deleted queue hactive hdone =>
      exact { within_refl w with
        queue := fun _ h => .queued (TaskQueue.taskDone_entries hdone ▸ h)
        active := fun _ h => by cases h }
  | scheduled job reason queue hactive hdone =>
      refine { within_refl w with
        queue := fun _ h => .queued (TaskQueue.taskDone_entries hdone ▸ h)
        active := fun _ h => (by cases h)
        retries := fun entry h => ?_
        tasks := fun t h => ?_ }
      · rcases Table.mem_set h with rfl | hold
        · exact .active _ hactive
        · exact .delayed entry hold rfl
      · rcases Table.mem_set h with rfl | hold
        · exact .active _ hactive
        · exact .task t hold rfl
  | woken task job htask =>
      refine { within_refl w with tasks := fun t h => ?_ }
      obtain ⟨t', ht', rfl⟩ := List.mem_map.mp h
      exact .task t' ht' rfl
  | abandoned task job => exact popped_within w task job.documentId
  | requeued task job htask =>
      refine { popped_within w task job.documentId with queue := fun other h => ?_ }
      rcases List.mem_append.mp h with hold | hput
      · exact .queued hold
      · cases List.mem_singleton.mp hput
        exact .task _ (Table.find?_mem htask) rfl
  | lost task job => exact { popped_within w task job.documentId with }
  | unwound task t => exact popped_within w task t.job.documentId
  | unbegun task t =>
      exact { within_refl w with tasks := fun t h => .task t (List.mem_filter.mp h).1 rfl }
  | erased userId w' herase => exact eraseUser_within hbalanced herase
  | stop tasks htasks =>
      refine { within_refl w with tasks := fun t h => ?_ }
      obtain ⟨t', ht', -, hjob⟩ := htasks t h
      exact .task t' ht' hjob.symm
  | sentinel =>
      refine { within_refl w with queue := fun other h => ?_ }
      rcases List.mem_append.mp h with hold | hput
      · exact .queued hold
      · cases List.mem_singleton.mp hput
  | gathered | fence | start | stopped => exact { within_refl w with }

end IngestWorker

end PortRag.Ingest
