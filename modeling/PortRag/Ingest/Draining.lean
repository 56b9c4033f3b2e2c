import Mathlib.Data.List.ReduceOption
import PortRag.Ingest.Accounts

set_option autoImplicit false

/-!
# Erasing an owner from the ingest worker

`erase_user` against everything that may run beside it.  Its first part runs without an await
and empties the queue and the table of retries of the owner's jobs; `Cleared` says so, and no
later step undoes it.  What is left is the job in the active slot, which the erasure awaits:
`Erasing` follows it to its end, after which the worker is `Idle` for the owner for ever.
-/

namespace PortRag.Ingest

open PortRag.Foundation

namespace IngestWorker

/-! ## Sound states -/

/-- What holds in every state the worker reaches: the queue is balanced, and the entries of the
table name the tasks of their own jobs. -/
structure Ordered (w : IngestWorker) : Prop where
  balanced : w.Balanced
  entries : ∀ entry ∈ w.retries.rows, entry.task < w.nextTask ∧
    ∀ t ∈ w.tasks.rows, t.task = entry.task → t.job = entry.job
  numbered : ∀ t ∈ w.tasks.rows, t.task < w.nextTask

/-- A state in which every job belongs to the owner of its document. -/
structure Sound (owner : Uuid → Uuid) (w : IngestWorker) : Prop extends Ordered w where
  owned : ∀ job, w.Holds job → owner job.documentId = job.userId

/-- Callers submit a job for its document's owner. -/
def Promised (owner : Uuid → Uuid) (event : WorkerEvent) : Prop :=
  ∀ job, event = .enqueue job → owner job.documentId = job.userId

theorem initial_ordered : initial.Ordered where
  balanced := initial_balanced
  entries _ h := by cases h
  numbered _ h := by cases h

theorem initial_holds {job : IngestJob} : ¬ initial.Holds job := by
  intro h
  cases h with
  | waiting h => cases h
  | queued h => cases h
  | active stage h => cases h
  | delayed entry h => cases h
  | task t h => cases h

theorem initial_sound (owner : Uuid → Uuid) : initial.Sound owner where
  toOrdered := initial_ordered
  owned _ h := absurd h initial_holds

/-- The tables of `w'` come from those of `w`: entries were only dropped, tasks were only
dropped, woken or cancelled. -/
structure Shrinks (w w' : IngestWorker) : Prop where
  nextTask : w'.nextTask = w.nextTask
  retries : ∀ entry ∈ w'.retries.rows, entry ∈ w.retries.rows
  tasks : ∀ t ∈ w'.tasks.rows, ∃ t' ∈ w.tasks.rows, t.task = t'.task ∧ t.job = t'.job

theorem shrinks_refl (w : IngestWorker) : w.Shrinks w where
  nextTask := rfl
  retries _ h := h
  tasks t h := ⟨t, h, rfl, rfl⟩

theorem popped_shrinks (w : IngestWorker) (task : Nat) (documentId : Uuid) :
    w.Shrinks ((w.endTask task).popRetry documentId) where
  nextTask := rfl
  retries _ h := (List.mem_filter.mp h).1
  tasks t h := ⟨t, (List.mem_filter.mp h).1, rfl, rfl⟩

theorem eraseUser_shrinks {w w' : IngestWorker} {stuck : List StagedPath} {userId : Uuid}
    (hbalanced : w.Balanced) (hstep : w.eraseUser stuck userId = some w') : w.Shrinks w' := by
  obtain ⟨queue, -, -, ⟨-, -, herase⟩ | ⟨-, -, herase⟩⟩ := eraseUser_eq hbalanced stuck userId
  · rw [herase] at hstep
    cases hstep
    exact { shrinks_refl w with }
  · rw [herase] at hstep
    obtain ⟨retries, tasks, removed, progress, hframe, hretries, htasks, -⟩ :=
      eraseRetries_frame { w with
        queue := queue
        erasedOwners := w.erasedOwners.insert userId
        deleted := w.deleted ++ ownedPaths userId w.queue.entries } stuck userId
    rw [hframe] at hstep
    cases hstep
    refine { shrinks_refl w with retries := hretries, tasks := fun t h => ?_ }
    obtain ⟨t', ht', htask, hjob, -⟩ := htasks t h
    exact ⟨t', ht', htask, hjob⟩

/-- Every step keeps the order: the queue stays balanced, and the entries of the table name the
tasks of their own jobs. -/
theorem step_ordered {w w' : IngestWorker} {stuck : List StagedPath} {event : WorkerEvent}
    (h : w.Ordered) (hstep : w.step stuck event = some w') : w'.Ordered := by
  have hbalanced : w'.Balanced := (step_counts h.balanced hstep).balanced
  have hshrunk : w.Shrinks w' → w'.Ordered := by
    intro hshrinks
    refine ⟨hbalanced, fun entry hentry => ?_, fun t ht => ?_⟩
    · obtain ⟨hnumber, hsame⟩ := h.entries entry (hshrinks.retries entry hentry)
      refine ⟨hshrinks.nextTask ▸ hnumber, fun t ht htask => ?_⟩
      obtain ⟨t', ht', htask', hjob⟩ := hshrinks.tasks t ht
      rw [hjob]
      exact hsame t' ht' (htask'.symm.trans htask)
    · obtain ⟨t', ht', htask, -⟩ := hshrinks.tasks t ht
      rw [hshrinks.nextTask, htask]
      exact h.numbered t' ht'
  cases move_of_step hstep with
  | scheduled job reason queue hactive hdone =>
      refine ⟨hbalanced, fun entry hentry => ?_, fun t ht => ?_⟩
      · rcases Table.mem_set hentry with rfl | hold
        · refine ⟨Nat.lt_succ_self _, fun t ht htask => ?_⟩
          rcases Table.mem_set ht with rfl | hold'
          · rfl
          · exact absurd htask (Nat.ne_of_lt (h.numbered t hold'))
        · obtain ⟨hnumber, hsame⟩ := h.entries entry hold
          refine ⟨Nat.lt_succ_of_lt hnumber, fun t ht htask => ?_⟩
          rcases Table.mem_set ht with rfl | hold'
          · exact absurd htask.symm (Nat.ne_of_lt hnumber)
          · exact hsame t hold' htask
      · rcases Table.mem_set ht with rfl | hold
        · exact Nat.lt_succ_self _
        · exact Nat.lt_succ_of_lt (h.numbered t hold)
  | woken task job htask =>
      refine hshrunk { shrinks_refl w with tasks := fun t ht => ?_ }
      obtain ⟨t', ht', rfl⟩ := List.mem_map.mp ht
      exact ⟨t', ht', rfl, rfl⟩
  | abandoned task job | requeued task job | lost task job =>
      exact hshrunk { popped_shrinks w task job.documentId with }
  | unwound task t => exact hshrunk (popped_shrinks w task t.job.documentId)
  | unbegun task =>
      exact hshrunk { shrinks_refl w with
        tasks := fun t ht => ⟨t, (List.mem_filter.mp ht).1, rfl, rfl⟩ }
  | erased userId w' herase => exact hshrunk (eraseUser_shrinks h.balanced herase)
  | stop tasks htasks => exact hshrunk { shrinks_refl w with tasks := htasks }
  | enqueue | accepted | refused | taken | closed | entered | turnedAway | returned | raised
  | resumed | gathered | fence | start | sentinel | stopped =>
      exact hshrunk { shrinks_refl w with }

theorem enqueue_holds {w : IngestWorker} {new job : IngestJob}
    (h : Holds { w with
      waiting := w.waiting ++ [new]
      submitted := w.submitted ++ [new] } job) : w.Holds job ∨ job = new := by
  cases h with
  | waiting h =>
      rcases List.mem_append.mp h with hold | hlast
      · exact .inl (.waiting hold)
      · exact .inr (List.mem_singleton.mp hlast)
  | queued h => exact .inl (.queued h)
  | active stage h => exact .inl (.active stage h)
  | delayed entry hentry hjob => exact .inl (.delayed entry hentry hjob)
  | task t ht hjob => exact .inl (.task t ht hjob)

theorem step_sound {owner : Uuid → Uuid} {w w' : IngestWorker} {stuck : List StagedPath}
    {event : WorkerEvent} (h : w.Sound owner) (hpromised : Promised owner event)
    (hstep : w.step stuck event = some w') : w'.Sound owner := by
  refine ⟨step_ordered h.toOrdered hstep, fun job hjob => ?_⟩
  by_cases hnew : ∃ new, event = .enqueue new
  · obtain ⟨new, rfl⟩ := hnew
    cases hstep
    rcases enqueue_holds hjob with hold | rfl
    · exact h.owned job hold
    · exact hpromised job rfl
  · have hwithin := step_within h.balanced hstep (fun new heq => hnew ⟨new, heq⟩)
    exact h.owned job (hwithin.holds hjob)

/-! ## After the first part of `erase_user` -/

/-- The owner is marked, and none of his jobs is queued or delayed. -/
structure Cleared (userId : Uuid) (w : IngestWorker) : Prop where
  marked : userId ∈ w.erasedOwners
  queue : ∀ job, some job ∈ w.queue.entries → job.userId ≠ userId
  retries : ∀ entry ∈ w.retries.rows, entry.job.userId ≠ userId

/-- No run of a job of this owner is under way. -/
def Idle (userId : Uuid) (w : IngestWorker) : Prop :=
  ∀ job stage, w.active = some ⟨job, stage⟩ → job.userId = userId → ∃ result, stage = .ended result

/-- What a call of `erase_user` changes: nothing of its jobs comes back, the owner is marked,
and the erasure is noted. -/
theorem eraseUser_frame {w w' : IngestWorker} {stuck : List StagedPath} {userId : Uuid}
    (hbalanced : w.Balanced) (hstep : w.eraseUser stuck userId = some w') :
    ∃ queue retries tasks deleted progress, w' = { w with
        queue := queue
        retries := retries
        tasks := tasks
        deleted := deleted
        erasedOwners := w.erasedOwners.insert userId
        erasures := w.erasures ++ [⟨userId, progress⟩] } ∧
      queue.entries.Sublist w.queue.entries := by
  obtain ⟨queue, -, -, ⟨-, hentries, herase⟩ | ⟨-, hentries, herase⟩⟩ :=
    eraseUser_eq hbalanced stuck userId
  · rw [herase] at hstep
    cases hstep
    exact ⟨_, _, _, _, _, rfl, by rw [hentries]⟩
  · rw [herase] at hstep
    obtain ⟨retries, tasks, removed, progress, hframe, -⟩ :=
      eraseRetries_frame { w with
        queue := queue
        erasedOwners := w.erasedOwners.insert userId
        deleted := w.deleted ++ ownedPaths userId w.queue.entries } stuck userId
    rw [hframe] at hstep
    cases hstep
    exact ⟨_, _, _, _, _, rfl, by rw [hentries]; exact List.filter_sublist⟩

theorem eraseUser_marks {w w' : IngestWorker} {stuck : List StagedPath} {userId : Uuid}
    (hbalanced : w.Balanced) (hstep : w.eraseUser stuck userId = some w') :
    (∀ other ∈ w.erasedOwners, other ∈ w'.erasedOwners) ∧
      (∀ entry ∈ w'.queue.entries, entry ∈ w.queue.entries) ∧ w'.active = w.active ∧
      ∃ progress, w'.erasures = w.erasures ++ [⟨userId, progress⟩] := by
  obtain ⟨queue, retries, tasks, deleted, progress, rfl, hqueue⟩ := eraseUser_frame hbalanced hstep
  exact ⟨fun other h => List.mem_insert_of_mem h, fun entry h => hqueue.subset h, rfl, progress, rfl⟩

/-- Once cleared, for ever cleared: `enqueue` and `_schedule_retry` look at the mark in the
step in which they would put the job back. -/
theorem step_cleared {w w' : IngestWorker} {stuck : List StagedPath} {event : WorkerEvent}
    {userId : Uuid} (hbalanced : w.Balanced) (h : w.Cleared userId)
    (hstep : w.step stuck event = some w') : w'.Cleared userId := by
  have hother : ∀ job : IngestJob, job.userId ∉ w.erasedOwners → job.userId ≠ userId :=
    fun job hkept heq => hkept (heq ▸ h.marked)
  cases move_of_step hstep with
  | accepted job _ hkept | requeued _ job _ hkept =>
      have hput : ∀ other, some other ∈ (w.queue.put (some job)).entries →
          other.userId ≠ userId := by
        intro other hmem
        rcases List.mem_append.mp hmem with hold | hnew
        · exact h.queue other hold
        · cases List.mem_singleton.mp hnew
          exact hother job hkept
      first
        | exact { h with queue := hput }
        | exact ⟨h.marked, hput, fun entry hentry => h.retries entry (List.mem_filter.mp hentry).1⟩
  | taken job rest _ hentries =>
      refine { h with queue := fun other hmem => ?_ }
      exact h.queue other (hentries ▸ List.mem_cons_of_mem _ hmem)
  | closed rest queue _ hentries hdone =>
      refine { h with queue := fun other hmem => h.queue other ?_ }
      have hqueue : queue.entries = rest := TaskQueue.taskDone_entries hdone
      rw [hentries]
      exact List.mem_cons_of_mem _ (hqueue ▸ hmem)
  | resumed _ _ _ _ _ _ hdone =>
      refine { h with queue := fun other hmem => ?_ }
      exact h.queue other (TaskQueue.taskDone_entries hdone ▸ hmem)
  | scheduled job _ queue _ hdone hkept =>
      refine ⟨h.marked, fun other hmem =>
        h.queue other (TaskQueue.taskDone_entries hdone ▸ hmem), fun entry hentry => ?_⟩
      rcases Table.mem_set hentry with rfl | hold
      · exact hother job hkept
      · exact h.retries entry hold
  | abandoned task job | lost task job | unwound task job =>
      refine { h with retries := fun entry hentry => ?_ }
      exact h.retries entry (List.mem_filter.mp hentry).1
  | erased other w' herase =>
      obtain ⟨hmarks, hqueue, -⟩ := eraseUser_marks hbalanced herase
      have hshrinks := eraseUser_shrinks hbalanced herase
      exact ⟨hmarks userId h.marked, fun job hmem => h.queue job (hqueue _ hmem),
        fun entry hentry => h.retries entry (hshrinks.retries entry hentry)⟩
  | sentinel =>
      refine { h with queue := fun other hmem => ?_ }
      rcases List.mem_append.mp hmem with hold | hnew
      · exact h.queue other hold
      · cases List.mem_singleton.mp hnew
  | enqueue | refused | entered | turnedAway | returned | raised | woken | unbegun | gathered
  | fence | start | stop | stopped => exact { h with }

/-- And no run of a job of his begins any more. -/
theorem step_idle {w w' : IngestWorker} {stuck : List StagedPath} {event : WorkerEvent}
    {userId : Uuid} (hbalanced : w.Balanced) (h : w.Cleared userId) (hidle : w.Idle userId)
    (hstep : w.step stuck event = some w') : w'.Idle userId := by
  intro job stage hactive howner
  cases move_of_step hstep with
  | taken new rest _ hentries =>
      cases hactive
      exact absurd howner (h.queue job (hentries ▸ List.mem_cons_self))
  | entered running hrunning =>
      cases hactive
      obtain ⟨result, hended⟩ := hidle job .entering hrunning howner
      cases hended
  | turnedAway _ _ ended | returned _ ended | raised _ _ ended =>
      cases hactive
      exact ⟨ended, rfl⟩
  | resumed | scheduled => cases hactive
  | erased other w' herase =>
      obtain ⟨-, -, hsame, -⟩ := eraseUser_marks hbalanced herase
      exact hidle job stage (hsame ▸ hactive) howner
  | enqueue | accepted | refused | closed | woken | abandoned | requeued | lost | unwound
  | unbegun | gathered | fence | start | stop | sentinel | stopped =>
      exact hidle job stage hactive howner

/-! ## An erasure on its way -/

/-- What holds of an owner while an erasure of his is this far. -/
def Stands (userId : Uuid) (w : IngestWorker) : Progress → Prop
  | .gathering _ => w.Cleared userId
  | .draining => w.Cleared userId ∧ ∃ job stage, w.active = some ⟨job, stage⟩ ∧
      job.userId = userId ∧ ∀ result, stage ≠ .ended result
  | .finished (.ok _) => w.Cleared userId ∧ w.Idle userId
  | .finished (.error _) => True

/-- Erasure number `erasure` is one of this owner's and stands as its progress says. -/
def Erasing (userId : Uuid) (erasure : Nat) (w : IngestWorker) : Prop :=
  ∃ progress, w.erasures[erasure]? = some ⟨userId, progress⟩ ∧ w.Stands userId progress

theorem awaitActive_stands {w : IngestWorker} {userId : Uuid} (h : w.Cleared userId) :
    w.Stands userId (w.awaitActive userId) := by
  unfold awaitActive
  split
  · next job stage hactive =>
      split
      · next howner =>
          cases stage with
          | entering =>
              exact ⟨h, job, .entering, hactive, howner, fun _ hne => by cases hne⟩
          | ingesting =>
              exact ⟨h, job, .ingesting, hactive, howner, fun _ hne => by cases hne⟩
          | ended result =>
              cases result with
              | ok _ =>
                  refine ⟨h, fun other stage hother _ => ?_⟩
                  cases hactive.symm.trans hother
                  exact ⟨_, rfl⟩
              | error e => trivial
      · next hother =>
          refine ⟨h, fun other stage hsame howner => ?_⟩
          cases hactive.symm.trans hsame
          exact absurd howner hother
  · next hnone =>
      refine ⟨h, fun other stage hother _ => ?_⟩
      cases hnone.symm.trans hother

/-- What the first part of `erase_user` leaves when no `unlink` raises. -/
structure Erased (userId : Uuid) (w w' : IngestWorker) : Prop where
  queue : w'.queue.entries = w.queue.entries.filter (keeps userId)
  retries : w'.retries = w.retries.keep (·.job.userId ≠ userId)
  erasedOwners : w'.erasedOwners = w.erasedOwners.insert userId
  active : w'.active = w.active
  erasures : w'.erasures = w.erasures ++ [⟨userId,
    if (w.retries.rows.filter (·.job.userId = userId)).isEmpty then w.awaitActive userId
    else .gathering ((w.retries.rows.filter (·.job.userId = userId)).map (·.task))⟩]

/-- No `unlink` of an original of this owner raises. -/
def Unstuck (userId : Uuid) (w : IngestWorker) (stuck : List StagedPath) : Prop :=
  (∀ path ∈ ownedPaths userId w.queue.entries, path ∉ stuck) ∧
    ∀ entry ∈ w.retries.rows, entry.job.userId = userId → entry.job.path ∉ stuck

theorem eraseUser_erased {w w' : IngestWorker} {stuck : List StagedPath} {userId : Uuid}
    (hbalanced : w.Balanced) (hunstuck : w.Unstuck userId stuck)
    (hstep : w.eraseUser stuck userId = some w') : w.Erased userId w' := by
  obtain ⟨queue, -, -, ⟨⟨path, hpath, hstuck⟩, -, -⟩ | ⟨-, hentries, herase⟩⟩ :=
    eraseUser_eq hbalanced stuck userId
  · exact absurd hstuck (hunstuck.1 path hpath)
  · obtain ⟨tasks, hretries⟩ := @eraseRetries_eq { w with
        queue := queue
        erasedOwners := w.erasedOwners.insert userId
        deleted := w.deleted ++ ownedPaths userId w.queue.entries } stuck userId hunstuck.2
    rw [herase, hretries] at hstep
    cases hstep
    exact ⟨hentries, rfl, rfl, rfl, rfl⟩

theorem Erased.cleared {w w' : IngestWorker} {userId : Uuid} (h : w.Erased userId w') :
    w'.Cleared userId where
  marked := h.erasedOwners ▸ List.mem_insert_self
  queue job hmem := by
    rw [h.queue] at hmem
    exact of_decide_eq_true (List.mem_filter.mp hmem).2
  retries entry hentry := by
    rw [h.retries] at hentry
    exact of_decide_eq_true (List.mem_filter.mp hentry).2

/-- An `unlink` of an original of the owner that raises ends the erasure. -/
theorem eraseUser_stuck {w w' : IngestWorker} {stuck : List StagedPath} {userId : Uuid}
    (hbalanced : w.Balanced) (hstuck : ¬ w.Unstuck userId stuck)
    (hstep : w.eraseUser stuck userId = some w') :
    w'.erasures = w.erasures ++ [⟨userId, .finished (.error unlinkError)⟩] := by
  obtain ⟨queue, -, -, ⟨-, -, herase⟩ | ⟨hnone, hentries, herase⟩⟩ :=
    eraseUser_eq hbalanced stuck userId
  · rw [herase] at hstep
    cases hstep
    rfl
  · have hretries : ∃ entry ∈ w.retries.rows.filter (·.job.userId = userId),
        entry.job.path ∈ stuck := by
      by_contra hno
      refine hstuck ⟨hnone, fun entry hentry howner hpath => hno ⟨entry, ?_, hpath⟩⟩
      exact List.mem_filter.mpr ⟨hentry, decide_eq_true howner⟩
    rw [herase] at hstep
    cases hstep
    obtain ⟨retries, tasks, removed, hframe, -⟩ := cancelRetries_frame stuck
      (w.retries.rows.filter (·.job.userId = userId)) { w with
        queue := queue
        erasedOwners := w.erasedOwners.insert userId
        deleted := w.deleted ++ ownedPaths userId w.queue.entries }
    rw [eraseRetries, cancelRetries_stuck hretries, hframe]
    rfl

/-- The call of `erase_user` is an erasure on its way. -/
theorem eraseUser_erasing {w w' : IngestWorker} {stuck : List StagedPath} {userId : Uuid}
    (hbalanced : w.Balanced) (hstep : w.eraseUser stuck userId = some w') :
    w'.Erasing userId w.erasures.length := by
  by_cases hunstuck : w.Unstuck userId stuck
  · have herased := eraseUser_erased hbalanced hunstuck hstep
    have hcleared := herased.cleared
    refine ⟨_, (congrArg (fun es : List Erasure => es[w.erasures.length]?) herased.erasures).trans
      List.getElem?_concat_length, ?_⟩
    split
    · have hsame : w.awaitActive userId = w'.awaitActive userId := by
        simp only [awaitActive, herased.active]
      rw [hsame]
      exact awaitActive_stands hcleared
    · exact hcleared
  · have hend := eraseUser_stuck hbalanced hunstuck hstep
    refine ⟨.finished (.error unlinkError), ?_, trivial⟩
    rw [hend]
    exact List.getElem?_concat_length

/-- A job's end ends the erasures that await it, and they learn how it has ended; the others go on
as they were. -/
theorem handed_erasing {w w' : IngestWorker} {userId : Uuid} {erasure : Nat} {job : IngestJob}
    {stage : Stage} {ended : Except Exc Unit} (h : w.Erasing userId erasure)
    (hactive : w.active = some ⟨job, stage⟩)
    (herasures : w'.erasures = w.erasures.map (Erasure.handed job.userId ended))
    (hactive' : w'.active = some ⟨job, .ended ended⟩)
    (hcleared : w.Cleared userId → w'.Cleared userId)
    (hidle : w.Cleared userId → w.Idle userId → w'.Idle userId) : w'.Erasing userId erasure := by
  obtain ⟨progress, herasure, hstands⟩ := h
  have hmapped : w'.erasures[erasure]? =
      some (Erasure.handed job.userId ended ⟨userId, progress⟩) := by
    rw [herasures, List.getElem?_map, herasure]
    rfl
  cases progress with
  | gathering tasks =>
      exact ⟨.gathering tasks, by simpa [Erasure.handed] using hmapped, hcleared hstands⟩
  | draining =>
      obtain ⟨hclear, running, running', hrunning, howner, -⟩ := hstands
      cases hactive.symm.trans hrunning
      refine ⟨.finished ended, by simpa [Erasure.handed, howner] using hmapped, ?_⟩
      cases ended with
      | ok _ =>
          refine ⟨hcleared hclear, fun other stage hother _ => ?_⟩
          cases hactive'.symm.trans hother
          exact ⟨_, rfl⟩
      | error e => trivial
  | finished result =>
      refine ⟨.finished result, by simpa [Erasure.handed] using hmapped, ?_⟩
      cases result with
      | ok _ => exact ⟨hcleared hstands.1, hidle hstands.1 hstands.2⟩
      | error e => trivial

/-- A step that leaves this erasure and the active slot alone. -/
theorem kept_erasing {w w' : IngestWorker} {userId : Uuid} {erasure : Nat}
    (h : w.Erasing userId erasure)
    (herasures : w'.erasures[erasure]? = w.erasures[erasure]?)
    (hcleared : w.Cleared userId → w'.Cleared userId)
    (hidle : w.Cleared userId → w.Idle userId → w'.Idle userId)
    (hactive : ∀ job stage, w.active = some ⟨job, stage⟩ → (∀ result, stage ≠ .ended result) →
      ∃ stage', w'.active = some ⟨job, stage'⟩ ∧ ∀ result, stage' ≠ .ended result) :
    w'.Erasing userId erasure := by
  obtain ⟨progress, herasure, hstands⟩ := h
  refine ⟨progress, herasures.trans herasure, ?_⟩
  cases progress with
  | gathering tasks => exact hcleared hstands
  | draining =>
      obtain ⟨hclear, job, stage, hrunning, howner, hstage⟩ := hstands
      obtain ⟨stage', hrunning', hstage'⟩ := hactive job stage hrunning hstage
      exact ⟨hcleared hclear, job, stage', hrunning', howner, hstage'⟩
  | finished result =>
      cases result with
      | ok _ => exact ⟨hcleared hstands.1, hidle hstands.1 hstands.2⟩
      | error e => trivial

/-- Every step leaves an erasure as it stands or takes it on: the retries that it has cancelled end,
or the job that it awaits does; what it has cleared stays cleared. -/
theorem step_erasing {w w' : IngestWorker} {stuck : List StagedPath} {event : WorkerEvent}
    {userId : Uuid} {erasure : Nat} (hbalanced : w.Balanced) (h : w.Erasing userId erasure)
    (hstep : w.step stuck event = some w') : w'.Erasing userId erasure := by
  have hcleared : w.Cleared userId → w'.Cleared userId := fun hc => step_cleared hbalanced hc hstep
  have hidle : w.Cleared userId → w.Idle userId → w'.Idle userId :=
    fun hc hi => step_idle hbalanced hc hi hstep
  cases move_of_step hstep with
  | turnedAway job _ ended _ hactive | raised job _ ended _ hactive | returned job ended _ hactive =>
      exact handed_erasing h hactive rfl rfl hcleared hidle
  | entered job hactive =>
      refine kept_erasing h rfl hcleared hidle fun other stage hother _ => ?_
      cases hactive.symm.trans hother
      exact ⟨.ingesting, rfl, fun _ hne => by cases hne⟩
  | resumed job result _ _ _ hactive | scheduled job reason _ hactive =>
      refine kept_erasing h rfl hcleared hidle fun other stage hother hstage => ?_
      cases hactive.symm.trans hother
      exact absurd rfl (hstage _)
  | taken job rest hnone | closed rest queue hnone =>
      refine kept_erasing h rfl hcleared hidle fun other stage hother _ => ?_
      cases hnone.symm.trans hother
  | erased other w' herase =>
      obtain ⟨-, -, hactive, progress, herasures⟩ := eraseUser_marks hbalanced herase
      obtain ⟨known, hknown, -⟩ := id h
      have hlength : erasure < w.erasures.length := (List.getElem?_eq_some_iff.mp hknown).1
      refine kept_erasing h ?_ hcleared hidle fun job stage hjob hstage =>
        ⟨stage, hactive.trans hjob, hstage⟩
      rw [herasures, List.getElem?_append_left hlength]
  | gathered number owner tasks hfound hended =>
      obtain ⟨progress, herasure, hstands⟩ := id h
      by_cases hsame : number = erasure
      · subst hsame
        cases hfound.symm.trans herasure
        refine ⟨w.awaitActive userId, ?_, awaitActive_stands (hcleared hstands)⟩
        exact List.getElem?_set_self (List.getElem?_eq_some_iff.mp herasure).1
      · exact kept_erasing h (List.getElem?_set_ne hsame) hcleared hidle
          fun job stage hjob hstage => ⟨stage, hjob, hstage⟩
  | enqueue | accepted | refused | woken | abandoned | requeued | lost | unwound | unbegun
  | fence | start | stop | sentinel | stopped =>
      exact kept_erasing h rfl hcleared hidle fun job stage hjob hstage => ⟨stage, hjob, hstage⟩

/-! ## The other owners -/

/-- A job is in the queue or in the table of retries. -/
def Pending (w : IngestWorker) (job : IngestJob) : Prop :=
  some job ∈ w.queue.entries ∨ ∃ entry ∈ w.retries.rows, entry.job = job

/-- What belongs to other owners is as it was: their entries in their order, their retries and
the tasks of these; an original deleted meanwhile is that of a pending job of this owner. -/
structure Spares (userId : Uuid) (w w' : IngestWorker) : Prop where
  queue : w'.queue.entries.filter (keeps userId) = w.queue.entries.filter (keeps userId)
  retries : w'.retries.rows.filter (·.job.userId ≠ userId) =
    w.retries.rows.filter (·.job.userId ≠ userId)
  tasks : ∀ t ∈ w.tasks.rows, t.job.userId ≠ userId → t ∈ w'.tasks.rows
  deleted : ∀ path ∈ w'.deleted, path ∈ w.deleted ∨
    ∃ job, w.Pending job ∧ job.userId = userId ∧ job.path = path

/-- Popping an entry of this owner leaves the entries of the others, in their order. -/
theorem popRetry_others {w : IngestWorker} {userId documentId : Uuid}
    (h : ∀ e ∈ w.retries.rows, e.job.documentId = documentId → e.job.userId = userId) :
    (w.popRetry documentId).retries.rows.filter (·.job.userId ≠ userId) =
      w.retries.rows.filter (·.job.userId ≠ userId) := by
  show (w.retries.rows.filter _).filter _ = _
  rw [List.filter_filter]
  apply List.filter_congr
  intro e he
  by_cases howner : e.job.userId = userId
  · simp [howner]
  · have hkey : e.job.documentId ≠ documentId := fun heq => howner (h e he heq)
    simp [howner, hkey]

/-- Cancelling the retries of an owner leaves the entries and the tasks of all others. -/
theorem cancelRetries_others {stuck : List StagedPath} {userId : Uuid} {entries : List RetryEntry}
    {w : IngestWorker}
    (hkeys : ∀ entry ∈ entries, ∀ e ∈ w.retries.rows,
      e.job.documentId = entry.job.documentId → e.job.userId = userId)
    (htasks : ∀ entry ∈ entries, ∀ t ∈ w.tasks.rows, t.task = entry.task → t.job.userId = userId) :
    (cancelRetries stuck entries w).1.retries.rows.filter (·.job.userId ≠ userId) =
        w.retries.rows.filter (·.job.userId ≠ userId) ∧
      ∀ t ∈ w.tasks.rows, t.job.userId ≠ userId → t ∈ (cancelRetries stuck entries w).1.tasks.rows := by
  induction entries generalizing w with
  | nil => exact ⟨rfl, fun t ht _ => ht⟩
  | cons entry rest ih =>
      have hpopped := popRetry_others (hkeys entry List.mem_cons_self)
      have hothers : ∀ t ∈ w.tasks.rows, t.job.userId ≠ userId →
          t ∈ (w.cancelTask entry.task).tasks.rows := by
        intro t ht howner
        have hnumber : t.task ≠ entry.task :=
          fun heq => howner (htasks entry List.mem_cons_self t ht heq)
        exact List.mem_map.mpr ⟨t, ht, by simp [RetryTask.cancel, hnumber]⟩
      rw [cancelRetries]
      split
      · exact ⟨hpopped, hothers⟩
      · obtain ⟨hretries, htasks'⟩ := @ih
          (((w.popRetry entry.job.documentId).cancelTask entry.task).unlink entry.job.path)
          (fun e he e' he' => hkeys e (List.mem_cons_of_mem _ he) e' (List.mem_filter.mp he').1)
          (by
            intro e he t ht htask
            obtain ⟨t', ht', rfl⟩ := List.mem_map.mp ht
            exact htasks e (List.mem_cons_of_mem _ he) t' ht' htask)
        exact ⟨hretries.trans hpopped, fun t ht howner => htasks' t (hothers t ht howner) howner⟩

/-- The call of `erase_user` spares the other owners, whether it raises or not. -/
theorem eraseUser_spares {w w' : IngestWorker} {stuck : List StagedPath} {userId : Uuid}
    (hbalanced : w.Balanced)
    (hnumbers : ∀ entry ∈ w.retries.rows, ∀ t ∈ w.tasks.rows, t.task = entry.task → t.job = entry.job)
    (hstep : w.eraseUser stuck userId = some w') : w.Spares userId w' := by
  have hpaths : ∀ path ∈ ownedPaths userId w.queue.entries,
      ∃ job, w.Pending job ∧ job.userId = userId ∧ job.path = path := by
    intro path hpath
    obtain ⟨job, hjob, rfl⟩ := List.mem_map.mp hpath
    obtain ⟨hmem, howner⟩ := List.mem_filter.mp hjob
    exact ⟨job, .inl (List.reduceOption_mem_iff.mp hmem), of_decide_eq_true howner, rfl⟩
  obtain ⟨queue, -, -, ⟨-, hentries, herase⟩ | ⟨-, hentries, herase⟩⟩ :=
    eraseUser_eq hbalanced stuck userId
  · rw [herase] at hstep
    cases hstep
    refine ⟨by rw [hentries], rfl, fun t ht _ => ht, fun path hpath => ?_⟩
    rcases List.mem_append.mp hpath with hold | hnew
    · exact .inl hold
    · exact .inr (hpaths path ((List.takeWhile_sublist _).subset hnew))
  · rw [herase] at hstep
    obtain ⟨hretries, htasks⟩ := @cancelRetries_others stuck userId
      (w.retries.rows.filter (·.job.userId = userId)) { w with
        queue := queue
        erasedOwners := w.erasedOwners.insert userId
        deleted := w.deleted ++ ownedPaths userId w.queue.entries }
      (by
        intro entry hentry e he hkey
        obtain ⟨hmem, howner⟩ := List.mem_filter.mp hentry
        rw [Table.eq_of_key he hmem hkey]
        exact of_decide_eq_true howner)
      (by
        intro entry hentry t ht htask
        obtain ⟨hmem, howner⟩ := List.mem_filter.mp hentry
        rw [hnumbers entry hmem t ht htask]
        exact of_decide_eq_true howner)
    obtain ⟨retries, tasks, removed, progress, hframe, -, -, hremoved⟩ := eraseRetries_frame { w with
      queue := queue
      erasedOwners := w.erasedOwners.insert userId
      deleted := w.deleted ++ ownedPaths userId w.queue.entries } stuck userId
    have hw' := Option.some.inj hstep
    have hdeleted : w'.deleted = w.deleted ++ ownedPaths userId w.queue.entries ++ removed := by
      rw [← hw', hframe]
    have hqueue : w'.queue.entries = w.queue.entries.filter (keeps userId) := by
      rw [← hw', hframe]
      exact hentries
    subst hw'
    refine ⟨?_, hretries, htasks, fun path hpath => ?_⟩
    · rw [hqueue, List.filter_filter]
      simp only [Bool.and_self]
    · rw [hdeleted] at hpath
      rcases List.mem_append.mp hpath with hpath | hnew
      · rcases List.mem_append.mp hpath with hold | hnew
        · exact .inl hold
        · exact .inr (hpaths path hnew)
      · obtain ⟨entry, hentry, howner, hsame⟩ := hremoved path hnew
        exact .inr ⟨entry.job, .inr ⟨entry, hentry, rfl⟩, howner, hsame⟩

/-- The steps in which an erasure of this owner goes on: a retry it has cancelled ends, or it
has gathered them. -/
def Continues (userId : Uuid) (w : IngestWorker) : WorkerEvent → Prop
  | .gathered _ => True
  | .unwound task _ => ∃ t, w.tasks.find? task = some t ∧ t.job.userId = userId
  | _ => False

theorem continues_spares {owner : Uuid → Uuid} {w w' : IngestWorker} {stuck : List StagedPath}
    {userId : Uuid} {event : WorkerEvent} (h : w.Sound owner) (hcontinues : w.Continues userId event)
    (hstep : w.step stuck event = some w') : w.Spares userId w' := by
  have hothers : ∀ task t, w.tasks.find? task = some t → t.job.userId = userId →
      ∀ other ∈ w.tasks.rows, other.job.userId ≠ userId → other ∈ (w.endTask task).tasks.rows := by
    intro task t htask howner other hother hne
    refine List.mem_filter.mpr ⟨hother, decide_eq_true fun hnumber => hne ?_⟩
    rw [Table.eq_of_key hother (Table.find?_mem htask) (hnumber.trans (Table.find?_key htask).symm)]
    exact howner
  cases move_of_step hstep with
  | gathered => exact ⟨rfl, rfl, fun t ht _ => ht, fun path hpath => .inl hpath⟩
  | unwound task t htask =>
      obtain ⟨t', htask', howner⟩ := hcontinues
      cases htask.symm.trans htask'
      refine ⟨rfl, ?_, hothers task t htask howner, fun path hpath => .inl hpath⟩
      refine popRetry_others (w := w.endTask task) fun e he hkey => ?_
      rw [← h.owned e.job (.delayed e he rfl), hkey,
        h.owned t.job (.task t (Table.find?_mem htask) rfl)]
      exact howner
  | unbegun task t htask =>
      obtain ⟨t', htask', howner⟩ := hcontinues
      cases htask.symm.trans htask'
      exact ⟨rfl, rfl, hothers task t htask howner, fun path hpath => .inl hpath⟩
  | _ => exact hcontinues.elim

/-- A rebuilt queue that holds what it held before is the queue before, for something is in it. -/
theorem restored_eq {w : IngestWorker} {queue : TaskQueue (Option IngestJob)} {userId : Uuid}
    {path : StagedPath} (h : w.Balanced) (hbalanced : queue.Balanced w.active.toList.length)
    (hquiet : w.queue.Quiet queue) (hentries : queue.entries = w.queue.entries)
    (hpath : path ∈ ownedPaths userId w.queue.entries) : queue = w.queue := by
  have hcount : w.queue.unfinished = w.queue.entries.length + w.active.toList.length := h
  have hcount' : queue.unfinished = queue.entries.length + w.active.toList.length := hbalanced
  rw [hentries, ← hcount] at hcount'
  have hpos : 0 < w.queue.entries.length := by
    obtain ⟨job, hjob, -⟩ := List.mem_map.mp hpath
    exact List.length_pos_of_mem (List.reduceOption_mem_iff.mp (List.mem_filter.mp hjob).1)
  have hwoken : queue.woken = w.queue.woken := by
    by_contra hne
    have hzero := hquiet hne
    omega
  cases queue
  cases hw : w.queue
  simp_all

/-! ## Runs -/

/-- The steps of a run, with which calls of `unlink` raise in each. -/
abbrev WorkerStep : Type := Step IngestWorker (List StagedPath × WorkerEvent) Unit

theorem run_sound {owner : Uuid → Uuid} {w w' : IngestWorker} {steps : List WorkerStep}
    (h : w.Sound owner) (hrun : Trace Steps w steps w')
    (hpromised : ∀ st ∈ steps, Promised owner st.call.2) :
    w'.Sound owner ∧ ∀ st ∈ steps, st.before.Sound owner := by
  have hall : w'.Sound owner := by
    refine hrun.holds_through (P := fun w => w.Sound owner) h fun st hst hstep hsound => ?_
    exact step_sound hsound (hpromised st hst) hstep
  refine ⟨hall, fun st hst => ?_⟩
  obtain ⟨first, rest, rfl⟩ := List.append_of_mem hst
  obtain ⟨hfirst, -, -⟩ := hrun.split_at
  refine hfirst.holds_through (P := fun w => w.Sound owner) h fun st' hst' hstep hsound => ?_
  exact step_sound hsound (hpromised st' (List.mem_append_left _ hst')) hstep

theorem run_erasing {owner : Uuid → Uuid} {w w' : IngestWorker} {steps : List WorkerStep}
    {userId : Uuid} {erasure : Nat} (hsound : w.Sound owner) (h : w.Erasing userId erasure)
    (hrun : Trace Steps w steps w') (hpromised : ∀ st ∈ steps, Promised owner st.call.2) :
    w'.Erasing userId erasure := by
  obtain ⟨-, hbefore⟩ := run_sound hsound hrun hpromised
  refine hrun.holds_through (P := fun w => w.Erasing userId erasure) h fun st hst hstep herasing => ?_
  exact step_erasing (hbefore st hst).balanced herasing hstep

/-- The owner is cleared and idle. -/
def Done (userId : Uuid) (w : IngestWorker) : Prop := w.Cleared userId ∧ w.Idle userId

theorem run_done {owner : Uuid → Uuid} {w w' : IngestWorker} {steps : List WorkerStep}
    {userId : Uuid} (hsound : w.Sound owner) (h : w.Done userId) (hrun : Trace Steps w steps w')
    (hpromised : ∀ st ∈ steps, Promised owner st.call.2) :
    w'.Done userId ∧ ∀ st ∈ steps, st.before.Done userId := by
  obtain ⟨-, hbefore⟩ := run_sound hsound hrun hpromised
  have hkeep : ∀ st ∈ steps, Steps st.before st.call st.answer st.after →
      st.before.Done userId → st.after.Done userId := by
    intro st hst hstep hdone
    have hbalanced := (hbefore st hst).balanced
    exact ⟨step_cleared hbalanced hdone.1 hstep, step_idle hbalanced hdone.1 hdone.2 hstep⟩
  refine ⟨hrun.holds_through (P := fun w => w.Done userId) h hkeep, fun st hst => ?_⟩
  obtain ⟨first, rest, rfl⟩ := List.append_of_mem hst
  obtain ⟨hfirst, -, -⟩ := hrun.split_at
  exact hfirst.holds_through (P := fun w => w.Done userId) h
    (fun st' hst' => hkeep st' (List.mem_append_left _ hst'))

/-- `_ingest_job` calls `pipeline.ingest` for a job of this owner. -/
def StartsIngest (userId : Uuid) (st : WorkerStep) : Prop :=
  st.call.2 = .entered (.ok ()) ∧
    ∃ job stage, st.before.active = some ⟨job, stage⟩ ∧ job.userId = userId ∧ stage = .entering

/-- Erasing an owner, from any state and whatever runs beside it.  The call spares the other
owners; if an `unlink` of a queued original raises, the queue is as before it.  In every step
of every run the count is that of the entries queued and processed, and joiners are woken only
when there is none; a step in which the erasure goes on spares the other owners.  Once it has
returned, nothing of the owner is queued, delayed or under way, and no run for him starts. -/
theorem erase_user_drains {owner : Uuid → Uuid} {w : IngestWorker} (hsound : w.Sound owner)
    (stuck : List StagedPath) (userId : Uuid) :
    ∃ w₁, w.step stuck (.eraseUser userId) = some w₁ ∧ w.Counts w₁ ∧ w.Spares userId w₁ ∧
      ((∃ path ∈ ownedPaths userId w.queue.entries, path ∈ stuck) → w₁.queue = w.queue) ∧
      ∀ steps w₂, Trace Steps w₁ steps w₂ → (∀ st ∈ steps, Promised owner st.call.2) →
        (∀ st ∈ steps, st.before.Counts st.after) ∧
        (∀ st ∈ steps, st.before.Continues userId st.call.2 →
          st.before.Spares userId st.after) ∧
        (w₂.erasures[w.erasures.length]? = some ⟨userId, .finished (.ok ())⟩ →
          w₂.Done userId ∧
          ∀ later w₃, Trace Steps w₂ later w₃ → (∀ st ∈ later, Promised owner st.call.2) →
            w₃.Done userId ∧ ∀ st ∈ later, ¬ StartsIngest userId st) := by
  obtain ⟨w₁, hcall⟩ : ∃ w₁, w.eraseUser stuck userId = some w₁ := by
    obtain ⟨queue, -, -, ⟨-, -, herase⟩ | ⟨-, -, herase⟩⟩ := eraseUser_eq hsound.balanced stuck userId
    · exact ⟨_, herase⟩
    · exact ⟨_, herase⟩
  have hstep : w.step stuck (.eraseUser userId) = some w₁ := hcall
  have hcounts := step_counts hsound.balanced hstep
  have hsound₁ : w₁.Sound owner := step_sound hsound (fun job hjob => by cases hjob) hstep
  have hspares := eraseUser_spares hsound.balanced (fun e he => (hsound.entries e he).2) hcall
  refine ⟨w₁, hstep, hcounts, hspares, ?_, ?_⟩
  · rintro ⟨path, hpath, hpathStuck⟩
    obtain ⟨queue, hbalanced, hquiet, ⟨-, hentries, herase⟩ | ⟨hnone, -, -⟩⟩ :=
      eraseUser_eq hsound.balanced stuck userId
    · cases hcall.symm.trans herase
      exact restored_eq hsound.balanced hbalanced hquiet hentries hpath
    · exact absurd hpathStuck (hnone path hpath)
  · intro steps w₂ hrun hpromised
    obtain ⟨hsound₂, hbefore⟩ := run_sound hsound₁ hrun hpromised
    refine ⟨fun st hst => step_counts (hbefore st hst).balanced (hrun.step_of_mem hst),
      fun st hst hcontinues => continues_spares (hbefore st hst) hcontinues (hrun.step_of_mem hst),
      fun hreturned => ?_⟩
    obtain ⟨progress, herasure, hstands⟩ :=
      run_erasing hsound₁ (eraseUser_erasing hsound.balanced hcall) hrun hpromised
    cases herasure.symm.trans hreturned
    refine ⟨hstands, fun later w₃ hlater hpromised' => ?_⟩
    obtain ⟨hdone, hdoneBefore⟩ := run_done hsound₂ hstands hlater hpromised'
    refine ⟨hdone, fun st hst => ?_⟩
    rintro ⟨-, job, stage, hactive, howner, rfl⟩
    obtain ⟨result, hended⟩ := (hdoneBefore st hst).2 job .entering hactive howner
    cases hended

/-! ## How an erasure ends -/

/-- The erasure has raised. -/
def Failed (userId : Uuid) (erasure : Nat) (w : IngestWorker) : Prop :=
  ∃ e, w.erasures[erasure]? = some ⟨userId, .finished (.error e)⟩

/-- The job in the active slot is one of this owner whose run has ended with an exception. -/
def EndedBadly (userId : Uuid) (w : IngestWorker) : Prop :=
  ∃ job e, w.active = some ⟨job, .ended (.error e)⟩ ∧ job.userId = userId

/-- The step in which what the erasure awaits turns out to end with an exception: the job it
drains fails its admission or its run, or it finds such a job when its retries have ended. -/
def AwaitedRaises (userId : Uuid) (erasure : Nat) (w : IngestWorker) (event : WorkerEvent) : Prop :=
  (w.erasures[erasure]? = some ⟨userId, .draining⟩ ∧
    ∃ e, event = .entered (.error e) ∨ event = .ingested (.error e)) ∨
  (event = .gathered erasure ∧ w.EndedBadly userId)

theorem awaitActive_failed {w : IngestWorker} {userId : Uuid} :
    (∃ e, w.awaitActive userId = .finished (.error e)) ↔ w.EndedBadly userId := by
  unfold awaitActive EndedBadly
  cases hactive : w.active with
  | none => simp
  | some running =>
      obtain ⟨job, stage⟩ := running
      by_cases howner : job.userId = userId
      · cases stage with
        | entering => simp [howner]
        | ingesting => simp [howner]
        | ended result =>
            cases result with
            | ok _ => simp [howner]
            | error e => simp [howner]
      · simp [howner]

theorem handed_failed {w w' : IngestWorker} {userId : Uuid} {erasure : Nat} {job : IngestJob}
    {stage : Stage} {ended : Except Exc Unit} (h : w.Erasing userId erasure)
    (hactive : w.active = some ⟨job, stage⟩)
    (herasures : w'.erasures = w.erasures.map (Erasure.handed job.userId ended)) :
    w'.Failed userId erasure ↔ w.Failed userId erasure ∨
      (w.erasures[erasure]? = some ⟨userId, .draining⟩ ∧ ∃ e, ended = .error e) := by
  obtain ⟨progress, herasure, hstands⟩ := h
  have hmapped : w'.erasures[erasure]? =
      some (Erasure.handed job.userId ended ⟨userId, progress⟩) := by
    rw [herasures, List.getElem?_map, herasure]
    rfl
  simp only [Failed, hmapped, herasure]
  cases progress with
  | gathering tasks => simp [Erasure.handed]
  | draining =>
      obtain ⟨-, running, running', hrunning, howner, -⟩ := hstands
      cases hactive.symm.trans hrunning
      simp [Erasure.handed, howner]
  | finished result => simp [Erasure.handed]

/-- One step with every deletion succeeding: an erasure raises exactly when what it awaits
does. -/
theorem step_failed {w w' : IngestWorker} {event : WorkerEvent} {userId : Uuid} {erasure : Nat}
    (hbalanced : w.Balanced) (h : w.Erasing userId erasure)
    (hstep : w.step [] event = some w') :
    w'.Failed userId erasure ↔
      w.Failed userId erasure ∨ w.AwaitedRaises userId erasure event := by
  have hsame : w'.erasures[erasure]? = w.erasures[erasure]? →
      ¬ w.AwaitedRaises userId erasure event →
        (w'.Failed userId erasure ↔
          w.Failed userId erasure ∨ w.AwaitedRaises userId erasure event) := by
    intro herasures hno
    simp only [Failed, herasures]
    exact ⟨.inl, fun h => h.resolve_right hno⟩
  cases move_of_step hstep with
  | turnedAway job e ended deleted hactive hmay hends
  | raised job e ended deleted hactive hmay hends =>
      rw [handed_failed h hactive rfl, hends.handed List.not_mem_nil]
      refine or_congr_right ⟨fun hdrain => .inl ⟨hdrain.1, e, ?_⟩, fun hraises => ?_⟩
      · first | exact .inl rfl | exact .inr rfl
      · rcases hraises with ⟨hdrain, -⟩ | ⟨hgathered, -⟩
        · exact ⟨hdrain, e, rfl⟩
        · cases hgathered
  | returned job ended deleted hactive hends =>
      rw [handed_failed h hactive rfl, hends.handed List.not_mem_nil]
      refine or_congr_right ⟨fun hdrain => ?_, fun hraises => ?_⟩
      · obtain ⟨-, e, hne⟩ := hdrain
        cases hne
      · rcases hraises with ⟨-, e, hne | hne⟩ | ⟨hgathered, -⟩
        · cases hne
        · cases hne
        · cases hgathered
  | entered =>
      refine hsame rfl ?_
      rintro (⟨-, e, hne | hne⟩ | ⟨hgathered, -⟩)
      · cases hne
      · cases hne
      · cases hgathered
  | erased other w' herase =>
      obtain ⟨-, -, -, progress, herasures⟩ := eraseUser_marks hbalanced herase
      obtain ⟨known, hknown, -⟩ := h
      have hlength : erasure < w.erasures.length := (List.getElem?_eq_some_iff.mp hknown).1
      refine hsame (by rw [herasures, List.getElem?_append_left hlength]) ?_
      rintro (⟨-, e, hne | hne⟩ | ⟨hgathered, -⟩)
      · cases hne
      · cases hne
      · cases hgathered
  | gathered number owner tasks hfound hended =>
      obtain ⟨progress, herasure, -⟩ := h
      by_cases hnumber : number = erasure
      · subst hnumber
        cases hfound.symm.trans herasure
        have hset : (w.erasures.set number ⟨userId, w.awaitActive userId⟩)[number]? =
            some ⟨userId, w.awaitActive userId⟩ :=
          List.getElem?_set_self (List.getElem?_eq_some_iff.mp herasure).1
        have hfailed := @awaitActive_failed w userId
        simp only [Failed, AwaitedRaises, hset, hfound]
        simpa using hfailed
      · refine hsame (List.getElem?_set_ne hnumber) ?_
        rintro (⟨-, e, hne | hne⟩ | ⟨hgathered, -⟩)
        · cases hne
        · cases hne
        · cases hgathered
          exact hnumber rfl
  | _ =>
      refine hsame rfl ?_
      rintro (⟨-, e, hne | hne⟩ | ⟨hgathered, -⟩)
      · cases hne
      · cases hne
      · cases hgathered

/-- An erasure has failed after a run exactly when it had before, or in one of the steps a job that
it awaited ended with an exception. -/
theorem run_failed {owner : Uuid → Uuid} {w w' : IngestWorker} {steps : List WorkerStep}
    {userId : Uuid} {erasure : Nat} (hsound : w.Sound owner) (h : w.Erasing userId erasure)
    (hrun : Trace Steps w steps w')
    (hsteps : ∀ st ∈ steps, st.call.1 = [] ∧ Promised owner st.call.2) :
    w'.Failed userId erasure ↔ w.Failed userId erasure ∨
      ∃ st ∈ steps, st.before.AwaitedRaises userId erasure st.call.2 := by
  induction hrun with
  | nil => simp
  | @snoc mid s'' steps c a hrun hstep ih =>
      have hinit : ∀ st ∈ steps, st.call.1 = [] ∧ Promised owner st.call.2 :=
        fun st hst => hsteps st (List.mem_append_left _ hst)
      have hpromised := fun st hst => (hinit st hst).2
      have hmid := (run_sound hsound hrun hpromised).1
      have herasing := run_erasing hsound h hrun hpromised
      have hlast := hsteps ⟨mid, c, a, s''⟩ (List.mem_append_right _ List.mem_cons_self)
      have hstep' : mid.step [] c.2 = some s'' := by
        rw [← hlast.1]
        exact hstep
      rw [step_failed hmid.balanced herasing hstep', ih hinit, or_assoc]
      refine or_congr_right ⟨?_, ?_⟩
      · rintro (⟨st, hst, hraises⟩ | hraises)
        · exact ⟨st, List.mem_append_left _ hst, hraises⟩
        · exact ⟨_, List.mem_append_right _ List.mem_cons_self, hraises⟩
      · rintro ⟨st, hst, hraises⟩
        rcases List.mem_append.mp hst with hold | hnew
        · exact .inl ⟨st, hold, hraises⟩
        · rw [List.mem_singleton.mp hnew] at hraises
          exact .inr hraises

/-- The erasure raises at its call only if it has no retry to wait for and finds the owner's
job ended with an exception. -/
theorem call_failed {w w₁ : IngestWorker} {userId : Uuid} (hbalanced : w.Balanced)
    (hcall : w.eraseUser [] userId = some w₁) :
    w₁.Failed userId w.erasures.length ↔
      (∀ entry ∈ w.retries.rows, entry.job.userId ≠ userId) ∧ w.EndedBadly userId := by
  have hunstuck : w.Unstuck userId [] :=
    ⟨fun _ _ => List.not_mem_nil, fun _ _ _ => List.not_mem_nil⟩
  have herased := eraseUser_erased hbalanced hunstuck hcall
  have herasure : w₁.erasures[w.erasures.length]? = some ⟨userId,
      if (w.retries.rows.filter (·.job.userId = userId)).isEmpty then w.awaitActive userId
      else .gathering ((w.retries.rows.filter (·.job.userId = userId)).map (·.task))⟩ := by
    rw [herased.erasures]
    exact List.getElem?_concat_length
  have hempty : (w.retries.rows.filter (·.job.userId = userId)).isEmpty ↔
      ∀ entry ∈ w.retries.rows, entry.job.userId ≠ userId := by
    rw [List.isEmpty_iff, List.filter_eq_nil_iff]
    exact forall₂_congr fun entry _ => by rw [decide_eq_true_iff]
  rw [← hempty]
  simp only [Failed, herasure]
  split
  · next h =>
      rw [← awaitActive_failed]
      simp [h]
  · next h => simp [h]

/-- How an erasure ends, when every deletion succeeds: it raises in no state of a run if and
only if no job that it awaits ends with an exception, neither one that has already ended at its
call or when its retries have ended, nor the one it drains.  It waits no longer than the job
runs, and goes on once the retries it has cancelled have ended. -/
theorem erase_user_returns_iff {owner : Uuid → Uuid} {w w₁ w₂ : IngestWorker} {userId : Uuid}
    {steps : List WorkerStep} (hsound : w.Sound owner)
    (hcall : w.step [] (.eraseUser userId) = some w₁) (hrun : Trace Steps w₁ steps w₂)
    (hsteps : ∀ st ∈ steps, st.call.1 = [] ∧ Promised owner st.call.2) :
    (¬ w₂.Failed userId w.erasures.length ↔
      ¬ ((∀ entry ∈ w.retries.rows, entry.job.userId ≠ userId) ∧ w.EndedBadly userId) ∧
        ∀ st ∈ steps, ¬ st.before.AwaitedRaises userId w.erasures.length st.call.2) ∧
    (w₂.Idle userId → w₂.erasures[w.erasures.length]? ≠ some ⟨userId, .draining⟩) ∧
    (∀ tasks, w₂.erasures[w.erasures.length]? = some ⟨userId, .gathering tasks⟩ →
      (∀ task ∈ tasks, w₂.tasks.find? task = none) →
      ∃ w₃, w₂.step [] (.gathered w.erasures.length) = some w₃ ∧
        w₃.erasures[w.erasures.length]? = some ⟨userId, w₂.awaitActive userId⟩) := by
  have hsound₁ : w₁.Sound owner := step_sound hsound (fun job hjob => by cases hjob) hcall
  have herasing : w₁.Erasing userId w.erasures.length := eraseUser_erasing hsound.balanced hcall
  obtain ⟨progress, herasure, hstands⟩ :=
    run_erasing hsound₁ herasing hrun (fun st hst => (hsteps st hst).2)
  refine ⟨?_, fun hidle hdraining => ?_, fun tasks hgathering hended => ?_⟩
  · rw [run_failed hsound₁ herasing hrun hsteps, call_failed hsound.balanced hcall, not_or]
    exact and_congr_right fun _ =>
      ⟨fun hno st hst hraises => hno ⟨st, hst, hraises⟩,
        fun hno ⟨st, hst, hraises⟩ => hno st hst hraises⟩
  · cases herasure.symm.trans hdraining
    obtain ⟨-, job, stage, hactive, howner, hstage⟩ := hstands
    obtain ⟨result, hended⟩ := hidle job stage hactive howner
    exact hstage result hended
  · have hnone : ¬ ∃ task ∈ tasks, (w₂.tasks.find? task).isSome := by
      rintro ⟨task, htask, hsome⟩
      rw [hended task htask] at hsome
      cases hsome
    refine ⟨{ w₂ with
      erasures := w₂.erasures.set w.erasures.length ⟨userId, w₂.awaitActive userId⟩ }, ?_, ?_⟩
    · simp only [step, IngestWorker.gathered, hgathering, if_neg hnone]
    · exact List.getElem?_set_self (List.getElem?_eq_some_iff.mp hgathering).1

/-! ## A fence that commits before the admission of the active job -/

/-- A staged upload of the owner of document 10, or of another owner. -/
def uploadOf (documentId : Uuid) : IngestJob :=
  ⟨documentId, ⟨"owners", documentId.str⟩, if documentId = 10 then 1 else 2⟩

/-- A run in which every deletion succeeds. -/
def runOf (w : IngestWorker) (events : List WorkerEvent) : Option IngestWorker :=
  (events.map (fun event => (([] : List StagedPath), event))).foldlM (fun w c => w.step c.1 c.2) w

/-- An upload is enqueued for the owner of its document. -/
def forOwner (owner : Uuid → Uuid) : WorkerEvent → Bool
  | .enqueue job => owner job.documentId = job.userId
  | _ => true

theorem promised_of_forOwner {owner : Uuid → Uuid} {events : List WorkerEvent}
    (h : events.all (forOwner owner) = true) : ∀ event ∈ events, Promised owner event := by
  intro event hevent job hjob
  have hall := List.all_eq_true.mp h event hevent
  subst hjob
  exact of_decide_eq_true hall

theorem exists_run (owner : Uuid → Uuid) {w w' : IngestWorker} {events : List WorkerEvent}
    (h : w.runOf events = some w') (hnew : events.all (forOwner owner) = true) :
    ∃ steps, Trace Steps w steps w' ∧ ∀ st ∈ steps, st.call.1 = [] ∧ Promised owner st.call.2 := by
  obtain ⟨steps, hrun, hcalls⟩ := exists_trace_of_foldlM h
  refine ⟨steps, hrun, fun st hst => ?_⟩
  have hmem : st.call ∈ steps.map (fun st => st.call) := List.mem_map.mpr ⟨st, hst, rfl⟩
  rw [hcalls] at hmem
  obtain ⟨event, hevent, hcall⟩ := List.mem_map.mp hmem
  rw [← hcall]
  exact ⟨rfl, promised_of_forOwner hnew event hevent⟩

/-- The worker has taken the upload, whose admission check under the owner's lock has not been
answered. -/
def takenUpload : List WorkerEvent :=
  [.start, .enqueue (uploadOf 10), .admitted (uploadOf 10) (.ok ()), .enqueue (uploadOf 20),
    .admitted (uploadOf 20) (.ok ()), .dequeue]

theorem takenUpload_sound {w : IngestWorker} (h : initial.runOf takenUpload = some w) :
    w.Sound (fun documentId => if documentId = 10 then 1 else 2) := by
  obtain ⟨steps, hrun, hsteps⟩ :=
    exists_run (fun documentId => if documentId = 10 then 1 else 2) h (by decide +kernel)
  exact (run_sound (initial_sound _) hrun (fun st hst => (hsteps st hst).2)).1

theorem erase_user_returns_iff_taken :
    ∃ w w₁ w₂, initial.runOf takenUpload = some w ∧ w.step [] (.eraseUser 1) = some w₁ ∧
      w₁.runOf [.entered (.ok ()), .ingested (.ok ())] = some w₂ ∧
      (w₂.Idle 1 → w₂.erasures[w.erasures.length]? ≠ some ⟨1, .draining⟩) := by
  have hsome : (initial.runOf takenUpload).isSome ∧
      ((initial.runOf takenUpload).bind (fun w => w.step [] (.eraseUser 1))).isSome ∧
      (((initial.runOf takenUpload).bind (fun w => w.step [] (.eraseUser 1))).bind
        (fun w => w.runOf [.entered (.ok ()), .ingested (.ok ())])).isSome := by decide +kernel
  obtain ⟨w, hw⟩ := Option.isSome_iff_exists.mp hsome.1
  rw [hw] at hsome
  obtain ⟨w₁, hcall⟩ := Option.isSome_iff_exists.mp hsome.2.1
  rw [hcall] at hsome
  obtain ⟨w₂, hend⟩ := Option.isSome_iff_exists.mp hsome.2.2
  have hcall' : w.step [] (.eraseUser 1) = some w₁ := hcall
  have hend' : w₁.runOf [.entered (.ok ()), .ingested (.ok ())] = some w₂ := hend
  obtain ⟨steps, hrun, hsteps⟩ :=
    exists_run (fun documentId => if documentId = 10 then 1 else 2) hend' (by decide +kernel)
  have hends := erase_user_returns_iff (takenUpload_sound hw) hcall' hrun hsteps
  exact ⟨w, w₁, w₂, hw, hcall', hend', hends.2.1⟩

/-- The fence commits after the job is taken and before its admission check: the check reports
the owner as erased, and the erasure that drains the job raises what the job raises. -/
theorem erasure_raises_what_the_job_raises :
    ¬ ∀ (w w₁ w₂ : IngestWorker) (steps : List WorkerStep) (userId : Uuid),
      w.Sound (fun documentId => if documentId = 10 then 1 else 2) →
      w.step [] (.eraseUser userId) = some w₁ → Trace Steps w₁ steps w₂ →
      (∀ st ∈ steps, st.call.1 = []) → ¬ w₂.Failed userId w.erasures.length := by
  intro hclaim
  have hsome : (initial.runOf (takenUpload ++ [.fence 1])).isSome ∧
      ((initial.runOf (takenUpload ++ [.fence 1])).bind
        (fun w => w.step [] (.eraseUser 1))).isSome ∧
      ((((initial.runOf (takenUpload ++ [.fence 1])).bind
        (fun w => w.step [] (.eraseUser 1))).bind
          (fun w => w.runOf [.entered (.error .ownerDataErased)])).map (fun w => w.erasures)) =
        some [⟨1, .finished (.error .ownerDataErased)⟩] ∧
      (initial.runOf (takenUpload ++ [.fence 1])).map (fun w => w.erasures.length) = some 0 := by
    decide +kernel
  obtain ⟨hfirst, hsecond, hlast, hnone⟩ := hsome
  obtain ⟨w, hw⟩ := Option.isSome_iff_exists.mp hfirst
  rw [hw] at hsecond hlast hnone
  obtain ⟨w₁, hcall⟩ := Option.isSome_iff_exists.mp hsecond
  rw [hcall] at hlast
  obtain ⟨w₂, hend, herasures⟩ := Option.map_eq_some_iff.mp hlast
  have hlength : w.erasures.length = 0 := Option.some.inj hnone
  obtain ⟨before, hbefore, hpromised⟩ :=
    exists_run (fun documentId => if documentId = 10 then 1 else 2) hw (by decide +kernel)
  have hsound := (run_sound (initial_sound _) hbefore (fun st hst => (hpromised st hst).2)).1
  have hend' : w₁.runOf [.entered (.error .ownerDataErased)] = some w₂ := hend
  obtain ⟨steps, hrun, hsteps⟩ :=
    exists_run (fun documentId => if documentId = 10 then 1 else 2) hend' (by decide +kernel)
  refine hclaim w w₁ w₂ steps 1 hsound hcall hrun (fun st hst => (hsteps st hst).1) ?_
  rw [hlength]
  exact ⟨.ownerDataErased, by rw [herasures]; rfl⟩

/-! ### An erasure with a job under way and another one queued -/

/-- Documents 10 to 19 belong to owner 1, the others to owner 2. -/
def tenthOwner (documentId : Uuid) : Uuid := if documentId / 10 = 1 then 1 else 2

/-- A staged upload of the owner of this document. -/
def stagedUpload (documentId : Uuid) : IngestJob :=
  ⟨documentId, ⟨"owners", documentId.str⟩, tenthOwner documentId⟩

/-- The worker has taken an upload of owner 1; another one of his and one of owner 2 are queued. -/
def busyUploads : List WorkerEvent :=
  .start :: [10, 11, 20].flatMap (fun id =>
    [.enqueue (stagedUpload id), .admitted (stagedUpload id) (.ok ())]) ++ [.dequeue]

/-- The erasure of owner 1 puts the queue back where a deletion fails.  Where none does, it ends
with the upload under way, nothing of him is left, and nothing is when the worker goes on to the
upload of owner 2. -/
theorem erase_user_drains_busy :
    ∃ w, initial.runOf busyUploads = some w ∧
      (∃ w₁, w.step [(stagedUpload 11).path] (.eraseUser 1) = some w₁ ∧ w₁.queue = w.queue) ∧
      ∃ w₁ w₂ w₃, w.step [] (.eraseUser 1) = some w₁ ∧ w.Spares 1 w₁ ∧
        w₁.runOf [.entered (.ok ()), .ingested (.ok ())] = some w₂ ∧ w₂.Done 1 ∧
        w₂.runOf [.resume, .dequeue, .entered (.ok ())] = some w₃ ∧ w₃.Done 1 ∧
        w₃.active = some ⟨stagedUpload 20, .ingesting⟩ := by
  have hsome : (initial.runOf busyUploads).map (fun w =>
        (w.erasures.length, decide ((stagedUpload 11).path ∈ ownedPaths 1 w.queue.entries))) =
      some (0, true) := by decide +kernel
  have hends : ((initial.runOf busyUploads).bind fun w => (w.step [] (.eraseUser 1)).bind fun w₁ =>
      (w₁.runOf [.entered (.ok ()), .ingested (.ok ())]).bind fun w₂ =>
        (w₂.runOf [.resume, .dequeue, .entered (.ok ())]).map fun w₃ => (w₂.erasures, w₃.active)) =
      some ([⟨1, .finished (.ok ())⟩], some ⟨stagedUpload 20, .ingesting⟩) := by decide +kernel
  obtain ⟨w, hw, hends⟩ := Option.bind_eq_some_iff.mp hends
  obtain ⟨w₁, hcall, hends⟩ := Option.bind_eq_some_iff.mp hends
  obtain ⟨w₂, hend, hends⟩ := Option.bind_eq_some_iff.mp hends
  obtain ⟨w₃, hlater, hends⟩ := Option.map_eq_some_iff.mp hends
  rw [hw, Option.map_some, Option.some.injEq, Prod.mk.injEq, decide_eq_true_eq] at hsome
  rw [Prod.mk.injEq] at hends
  obtain ⟨before, hbefore, hpromised⟩ := exists_run tenthOwner hw (by decide +kernel)
  have hsound : w.Sound tenthOwner :=
    (run_sound (initial_sound _) hbefore (fun st hst => (hpromised st hst).2)).1
  obtain ⟨w', hstuck, -, -, hqueue, -⟩ :=
    erase_user_drains hsound [(stagedUpload 11).path] 1
  obtain ⟨w₁', hcall', -, hspares, -, hruns⟩ := erase_user_drains hsound [] 1
  obtain rfl := Option.some.inj (hcall.symm.trans hcall')
  obtain ⟨steps, hrun, hsteps⟩ := exists_run tenthOwner hend (by decide +kernel)
  obtain ⟨rest, hrest, hpromised'⟩ := exists_run tenthOwner hlater (by decide +kernel)
  have hreturned : w₂.erasures[w.erasures.length]? = some ⟨1, .finished (.ok ())⟩ := by
    rw [hsome.1, hends.1]
    rfl
  obtain ⟨hdone, hdones⟩ := (hruns steps w₂ hrun (fun st hst => (hsteps st hst).2)).2.2 hreturned
  refine ⟨w, hw, ⟨w', hstuck, hqueue ⟨_, hsome.2, List.mem_singleton_self _⟩⟩, w₁, w₂, w₃, hcall,
    hspares, hend, hdone, hlater, ?_, hends.2⟩
  exact (hdones rest w₃ hrest (fun st hst => (hpromised' st hst).2)).1
end IngestWorker

end PortRag.Ingest
