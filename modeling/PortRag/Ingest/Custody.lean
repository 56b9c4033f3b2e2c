import PortRag.Ingest.Draining

set_option autoImplicit false

/-!
# Where an accepted job is

A job that `enqueue` has accepted stays in one place of the worker, with its original on the
disk, until its run has returned or its owner is erased; that is `Kept`.  It holds in every run
in which no admission check of the worker's own tasks fails with a transient error, and only
so: `_ingest_job` gives the job up with its original on such an error, `retry()` gives up the
job.  `Custody` is the invariant that carries the proof.
-/

namespace PortRag.Ingest

open PortRag.Foundation

namespace IngestWorker

/-- In how many places of the queue, the active slot and the table of retries a job is. -/
def places (w : IngestWorker) (job : IngestJob) : Nat :=
  w.queue.entries.count (some job) + (w.active.toList.map (·.job)).count job +
    (w.retries.rows.map (·.job)).count job

/-- The owner is erased: his fence has committed, or `erase_user` was called for him. -/
def Gone (w : IngestWorker) (userId : Uuid) : Prop := userId ∈ w.fenced ∨ userId ∈ w.erasedOwners

/-- Every accepted job is in one place with its original, or done with. -/
def Kept (w : IngestWorker) : Prop :=
  ∀ job ∈ w.accepted, job ∈ w.ingested ∨ w.Gone job.userId ∨
    (w.places job = 1 ∧ job.path ∉ w.deleted)

/-- The callers' steps: `stop` is not called, an upload has a document and a path of its own,
and `pipeline.ingest` returns, raises `RetryableIngestError` or finds the owner erased. -/
def Served (w : IngestWorker) : WorkerEvent → Prop
  | .stop => False
  | .enqueue job => ∀ other ∈ w.submitted,
      other.documentId ≠ job.documentId ∧ other.path ≠ job.path
  | .ingested result => ∀ e, result = .error e → isRetryable result ∨ e = .ownerDataErased
  | _ => True

instance decidableServed (w : IngestWorker) : (event : WorkerEvent) → Decidable (w.Served event)
  | .stop => .isFalse id
  | .enqueue job => inferInstanceAs (Decidable (∀ other ∈ w.submitted,
      other.documentId ≠ job.documentId ∧ other.path ≠ job.path))
  | .ingested (.ok _) => .isTrue (fun _ h => by cases h)
  | .ingested (.error e) =>
      decidable_of_iff (isRetryable (.error e) ∨ e = .ownerDataErased)
        ⟨fun h _ he => (by cases he; exact h), fun h => h e rfl⟩
  | .admitted _ _ | .dequeue | .entered _ | .resume | .wake _ | .retried _ _ | .unwound _ _
  | .eraseUser _ | .gathered _ | .fence _ | .start | .sentinel | .stopped => .isTrue trivial

/-- No admission check of the worker's own tasks fails with a transient error. -/
def Untroubled : WorkerEvent → Prop
  | .entered answer => ∀ e, answer = .error e → e = .ownerDataErased
  | .retried _ answer => ∀ e, answer = .error e → e = .ownerDataErased
  | _ => True

instance decidableUntroubled : (event : WorkerEvent) → Decidable (Untroubled event)
  | .entered (.ok _) | .retried _ (.ok _) => .isTrue (fun _ h => by cases h)
  | .entered (.error e) | .retried _ (.error e) =>
      decidable_of_iff (e = .ownerDataErased)
        ⟨fun h _ he => (by cases he; exact h), fun h => h e rfl⟩
  | .stop | .enqueue _ | .ingested _ | .admitted _ _ | .dequeue | .resume | .wake _ | .unwound _ _
  | .eraseUser _ | .gathered _ | .fence _ | .start | .sentinel | .stopped => .isTrue trivial

/-- The invariant: beside `Kept`, what is known about the jobs that wait for their admission
and about the tasks of the retries. -/
structure Custody (w : IngestWorker) : Prop extends Ordered w where
  going : w.stopping = false
  distinct : ∀ a ∈ w.submitted, ∀ b ∈ w.submitted, a ≠ b →
    a.documentId ≠ b.documentId ∧ a.path ≠ b.path
  known : ∀ job, w.Holds job → job ∈ w.submitted
  acceptedKnown : ∀ job ∈ w.accepted, job ∈ w.submitted
  deletedKnown : ∀ path ∈ w.deleted, ∃ job ∈ w.submitted, job.path = path
  waits : w.waiting.Nodup
  waiting : ∀ job ∈ w.waiting, job ∉ w.accepted ∧ ¬ w.Pending job ∧
    (∀ stage, w.active ≠ some ⟨job, stage⟩) ∧ (∀ t ∈ w.tasks.rows, t.job ≠ job) ∧
    job.path ∉ w.deleted
  tasks : ∀ t ∈ w.tasks.rows, t.job.userId ∈ w.erasedOwners ∨
    (t.cancelled = false ∧ ⟨t.job, t.task⟩ ∈ w.retries.rows)
  ended : ∀ job result, w.active = some ⟨job, .ended result⟩ →
    isRetryable result ∨ job ∈ w.ingested ∨ w.Gone job.userId
  once : ∀ job ∈ w.submitted, w.places job ≤ 1
  kept : w.Kept

section Laws

variable {w w' : IngestWorker}

theorem Custody.eq_of_document (h : w.Custody) {a b : IngestJob} (ha : a ∈ w.submitted)
    (hb : b ∈ w.submitted) (hdocument : a.documentId = b.documentId) : a = b := by
  by_contra hne
  exact (h.distinct a ha b hb hne).1 hdocument

theorem Custody.eq_of_path (h : w.Custody) {a b : IngestJob} (ha : a ∈ w.submitted)
    (hb : b ∈ w.submitted) (hpath : a.path = b.path) : a = b := by
  by_contra hne
  exact (h.distinct a ha b hb hne).2 hpath

theorem places_eq_zero {job : IngestJob} (hpending : ¬ w.Pending job)
    (hactive : ∀ stage, w.active ≠ some ⟨job, stage⟩) : w.places job = 0 := by
  have hqueue : w.queue.entries.count (some job) = 0 :=
    List.count_eq_zero.mpr (fun hmem => hpending (.inl hmem))
  have hretries : (w.retries.rows.map (·.job)).count job = 0 := by
    refine List.count_eq_zero.mpr fun hmem => ?_
    obtain ⟨entry, hentry, hjob⟩ := List.mem_map.mp hmem
    exact hpending (.inr ⟨entry, hentry, hjob⟩)
  have hslot : (w.active.toList.map (·.job)).count job = 0 := by
    refine List.count_eq_zero.mpr fun hmem => ?_
    obtain ⟨running, hrunning, hjob⟩ := List.mem_map.mp hmem
    rw [Option.mem_toList] at hrunning
    exact hactive running.stage (by rw [hrunning, ← hjob])
  rw [places, hqueue, hslot, hretries]

/-- Entries of other jobs survive the popping of a document's entry. -/
theorem count_popRetry {job : IngestJob} {documentId : Uuid}
    (h : job.documentId ≠ documentId) :
    ((w.popRetry documentId).retries.rows.map (·.job)).count job =
      (w.retries.rows.map (·.job)).count job := by
  show ((w.retries.rows.filter _).map _).count job = _
  rw [List.count_eq_countP, List.count_eq_countP, List.countP_map, List.countP_map,
    List.countP_filter]
  apply List.countP_congr
  intro entry _
  simp only [Function.comp_apply, beq_iff_eq, Bool.and_eq_true, decide_eq_true_eq]
  exact ⟨fun hboth => hboth.1, fun hsame => ⟨hsame, by rw [hsame]; exact h⟩⟩

theorem count_popRetry_self {job : IngestJob} :
    ((w.popRetry job.documentId).retries.rows.map (·.job)).count job = 0 := by
  refine List.count_eq_zero.mpr fun hmem => ?_
  obtain ⟨entry, hentry, hjob⟩ := List.mem_map.mp hmem
  have hkey := of_decide_eq_true (List.mem_filter.mp hentry).2
  exact hkey (by rw [hjob])

/-- A job has at most one entry in the table. -/
theorem count_retries {entry : RetryEntry} (h : entry ∈ w.retries.rows) :
    (w.retries.rows.map (·.job)).count entry.job = 1 := by
  have hnodup : (w.retries.rows.map (·.job)).Nodup := by
    refine List.Nodup.of_map (fun job : IngestJob => job.documentId) ?_
    rw [List.map_map]
    exact w.retries.keys_nodup
  exact List.count_eq_one_of_mem hnodup (List.mem_map.mpr ⟨entry, h, rfl⟩)

/-- A step that puts no accepted job elsewhere and removes no original, but of jobs that are
done with. -/
theorem kept_of {w w' : IngestWorker} (h : w.Kept) (haccepted : w'.accepted = w.accepted)
    (hingested : ∀ job ∈ w.ingested, job ∈ w'.ingested)
    (hgone : ∀ userId, w.Gone userId → w'.Gone userId)
    (hkept : ∀ job ∈ w.accepted, job ∉ w'.ingested → ¬ w'.Gone job.userId →
      w'.places job = w.places job ∧ (job.path ∈ w'.deleted → job.path ∈ w.deleted)) :
    w'.Kept := by
  intro job hjob
  rw [haccepted] at hjob
  by_cases hdone : job ∈ w'.ingested
  · exact .inl hdone
  by_cases hout : w'.Gone job.userId
  · exact .inr (.inl hout)
  obtain ⟨hplaces, hdeleted⟩ := hkept job hjob hdone hout
  rcases h job hjob with hin | hin | ⟨hone, hpath⟩
  · exact absurd (hingested job hin) hdone
  · exact absurd (hgone job.userId hin) hout
  · exact .inr (.inr ⟨hplaces.trans hone, fun hmem => hpath (hdeleted hmem)⟩)

end Laws

section Steps

variable {w w' : IngestWorker} {stuck : List StagedPath}

/-- An original that a step removes belongs to the one job the step is about, so that no other
submitted job loses its own. -/
theorem Custody.path_kept (h : w.Custody) {job other : IngestJob} {deleted : List StagedPath}
    (hdeleted : deleted = w.deleted ∨ deleted = w.deleted ++ [job.path])
    (hjob : job ∈ w.submitted) (hother : other ∈ w.submitted) (hne : other ≠ job)
    (hpath : other.path ∈ deleted) : other.path ∈ w.deleted := by
  rcases hdeleted with rfl | rfl
  · exact hpath
  · rcases List.mem_append.mp hpath with hold | hnew
    · exact hold
    · exact absurd (h.eq_of_path hother hjob (List.mem_singleton.mp hnew)) hne

theorem Custody.deleted_known (h : w.Custody) {job : IngestJob} {deleted : List StagedPath}
    (hdeleted : deleted = w.deleted ∨ deleted = w.deleted ++ [job.path])
    (hjob : job ∈ w.submitted) : ∀ path ∈ deleted, ∃ job ∈ w.submitted, job.path = path := by
  intro path hpath
  rcases hdeleted with rfl | rfl
  · exact h.deletedKnown path hpath
  · rcases List.mem_append.mp hpath with hold | hnew
    · exact h.deletedKnown path hold
    · exact ⟨job, hjob, (List.mem_singleton.mp hnew).symm⟩

/-- A call of `enqueue` adds a job that no other has the document or the original of. -/
theorem enqueue_custody (h : w.Custody) {job : IngestJob}
    (hfresh : ∀ other ∈ w.submitted, other.documentId ≠ job.documentId ∧ other.path ≠ job.path)
    (hordered : Ordered { w with
      waiting := w.waiting ++ [job]
      submitted := w.submitted ++ [job] }) :
    Custody { w with
      waiting := w.waiting ++ [job]
      submitted := w.submitted ++ [job] } := by
  have hnew : job ∉ w.submitted := fun hmem => (hfresh job hmem).1 rfl
  refine { h with
    toOrdered := hordered
    distinct := ?_
    known := ?_
    acceptedKnown := fun other hother => List.mem_append_left _ (h.acceptedKnown other hother)
    deletedKnown := ?_
    waits := ?_
    waiting := ?_
    once := ?_ }
  · intro a ha b hb hne
    rcases List.mem_append.mp ha with ha | ha
    · rcases List.mem_append.mp hb with hb | hb
      · exact h.distinct a ha b hb hne
      · rw [List.mem_singleton.mp hb]
        exact hfresh a ha
    · rcases List.mem_append.mp hb with hb | hb
      · rw [List.mem_singleton.mp ha]
        exact ⟨(hfresh b hb).1.symm, (hfresh b hb).2.symm⟩
      · exact absurd ((List.mem_singleton.mp ha).trans (List.mem_singleton.mp hb).symm) hne
  · intro other hother
    rcases enqueue_holds hother with hold | rfl
    · exact List.mem_append_left _ (h.known other hold)
    · exact List.mem_append_right _ List.mem_cons_self
  · intro path hpath
    obtain ⟨other, hother, hsame⟩ := h.deletedKnown path hpath
    exact ⟨other, List.mem_append_left _ hother, hsame⟩
  · have hwaiting : job ∉ w.waiting := fun hmem => hnew (h.known job (.waiting hmem))
    exact List.nodup_append.mpr ⟨h.waits, List.nodup_singleton job, fun a ha b hb heq =>
      hwaiting (List.mem_singleton.mp hb ▸ heq ▸ ha)⟩
  · intro other hother
    rcases List.mem_append.mp hother with hold | hlast
    · exact h.waiting other hold
    · obtain rfl := List.mem_singleton.mp hlast
      refine ⟨fun hmem => hnew (h.acceptedKnown _ hmem), ?_, fun stage hactive =>
        hnew (h.known _ (.active stage hactive)), fun t ht hjob => hnew (h.known _ (.task t ht hjob)),
        fun hpath => ?_⟩
      · rintro (hqueued | ⟨entry, hentry, hjob⟩)
        · exact hnew (h.known _ (.queued hqueued))
        · exact hnew (h.known _ (.delayed entry hentry hjob))
      · obtain ⟨known, hknown, hsame⟩ := h.deletedKnown _ hpath
        exact (hfresh known hknown).2 hsame
  · intro other hother
    rcases List.mem_append.mp hother with hold | hlast
    · exact h.once other hold
    · obtain rfl := List.mem_singleton.mp hlast
      have hnone : w.places other = 0 := by
        refine places_eq_zero ?_ fun stage hactive => hnew (h.known other (.active stage hactive))
        rintro (hqueued | ⟨entry, hentry, hjob⟩)
        · exact hnew (h.known other (.queued hqueued))
        · exact hnew (h.known other (.delayed entry hentry hjob))
      exact hnone ▸ Nat.zero_le 1

/-- A waiting job is accepted: it leaves the callers and goes into the queue, where it is once. -/
theorem accepted_custody (h : w.Custody) {job : IngestJob} (hwaiting : job ∈ w.waiting)
    (hordered : Ordered { w with
      waiting := w.waiting.erase job
      queue := w.queue.put (some job)
      accepted := w.accepted ++ [job] })
    (hwithin : w.Within { w with
      waiting := w.waiting.erase job
      queue := w.queue.put (some job)
      accepted := w.accepted ++ [job] }) :
    Custody { w with
      waiting := w.waiting.erase job
      queue := w.queue.put (some job)
      accepted := w.accepted ++ [job] } := by
  obtain ⟨hnew, hpending, hactive, htasks, hpath⟩ := h.waiting job hwaiting
  have hcount : ∀ other, List.count (some other) (w.queue.entries ++ [some job]) =
      w.queue.entries.count (some other) + (if other = job then 1 else 0) := by
    intro other
    rw [List.count_append, List.count_singleton]
    by_cases heq : other = job
    · simp [heq]
    · have hne : job ≠ other := fun hsame => heq hsame.symm
      simp [heq, hne]
  have hplaces : ∀ x, places { w with
      waiting := w.waiting.erase job
      queue := w.queue.put (some job)
      accepted := w.accepted ++ [job] } x = w.places x + (if x = job then 1 else 0) := by
    intro x
    show List.count (some x) (w.queue.entries ++ [some job]) + _ + _ = _
    rw [hcount x]
    simp only [places]
    omega
  have hnone : w.places job = 0 := places_eq_zero hpending hactive
  refine { h with
    toOrdered := hordered
    known := fun other hother => h.known other (hwithin.holds hother)
    acceptedKnown := ?_
    waits := h.waits.erase job
    waiting := ?_
    once := ?_
    kept := ?_ }
  · intro other hother
    rcases List.mem_append.mp hother with hold | hlast
    · exact h.acceptedKnown other hold
    · exact List.mem_singleton.mp hlast ▸ h.known job (.waiting hwaiting)
  · intro other hother
    obtain ⟨hne, hmem⟩ := (h.waits.mem_erase_iff).mp hother
    obtain ⟨hnew', hpending', hactive', htasks', hpath'⟩ := h.waiting other hmem
    refine ⟨fun hin => ?_, ?_, hactive', htasks', hpath'⟩
    · rcases List.mem_append.mp hin with hold | hlast
      · exact hnew' hold
      · exact hne (List.mem_singleton.mp hlast)
    · rintro (hqueued | hdelayed)
      · rcases List.mem_append.mp hqueued with hold | hlast
        · exact hpending' (.inl hold)
        · exact hne (Option.some.inj (List.mem_singleton.mp hlast))
      · exact hpending' (.inr hdelayed)
  · intro other hother
    rw [hplaces]
    by_cases heq : other = job
    · subst heq
      rw [hnone, if_pos rfl]
    · rw [if_neg heq]
      exact h.once other hother
  · intro other hother
    rcases List.mem_append.mp hother with hold | hlast
    · have hne : other ≠ job := fun heq => hnew (heq ▸ hold)
      rcases h.kept other hold with hin | hout | ⟨hone, hkept⟩
      · exact .inl hin
      · exact .inr (.inl hout)
      · refine .inr (.inr ⟨?_, hkept⟩)
        rw [hplaces, if_neg hne]
        exact hone
    · obtain rfl := List.mem_singleton.mp hlast
      refine .inr (.inr ⟨?_, hpath⟩)
      rw [hplaces, if_pos rfl, hnone]

/-- A step that keeps every job in its places, and may remove originals. -/
structure Settles (w w' : IngestWorker) : Prop where
  submitted : w'.submitted = w.submitted
  accepted : w'.accepted = w.accepted
  ingested : ∀ job ∈ w.ingested, job ∈ w'.ingested
  gone : ∀ userId, w.Gone userId → w'.Gone userId
  places : ∀ job ∈ w.submitted, w'.places job ≤ w.places job
  kept : ∀ job ∈ w.accepted, job ∉ w'.ingested → ¬ w'.Gone job.userId →
    w'.places job = w.places job ∧ (job.path ∈ w'.deleted → job.path ∈ w.deleted)

theorem Settles.once (h : w.Custody) (hsettles : w.Settles w') :
    ∀ job ∈ w'.submitted, w'.places job ≤ 1 := by
  intro job hjob
  rw [hsettles.submitted] at hjob
  exact (hsettles.places job hjob).trans (h.once job hjob)

theorem Settles.kept_all (h : w.Custody) (hsettles : w.Settles w') : w'.Kept :=
  kept_of h.kept hsettles.accepted hsettles.ingested hsettles.gone hsettles.kept

/-- The end of a job's task: the job stays in its slot, and its original is deleted only where its
run has returned or its owner is erased. -/
theorem ended_custody (h : w.Custody) {job : IngestJob} {stage : Stage} {ended : Except Exc Unit}
    {deleted : List StagedPath} {ingested : List IngestJob} {erasures : List Erasure}
    (hactive : w.active = some ⟨job, stage⟩)
    (hdeleted : deleted = w.deleted ∨ deleted = w.deleted ++ [job.path])
    (hingested : ∀ other ∈ w.ingested, other ∈ ingested)
    (hended : isRetryable ended ∨ job ∈ ingested ∨ w.Gone job.userId)
    (hremoved : deleted = w.deleted ∨ job ∈ ingested ∨ w.Gone job.userId)
    (hordered : Ordered { w with
      active := some ⟨job, .ended ended⟩
      erasures := erasures
      deleted := deleted
      ingested := ingested })
    (hwithin : w.Within { w with
      active := some ⟨job, .ended ended⟩
      erasures := erasures
      deleted := deleted
      ingested := ingested }) :
    Custody { w with
      active := some ⟨job, .ended ended⟩
      erasures := erasures
      deleted := deleted
      ingested := ingested } := by
  have hjob : job ∈ w.submitted := h.known job (.active stage hactive)
  have hsettles : w.Settles { w with
      active := some ⟨job, .ended ended⟩
      erasures := erasures
      deleted := deleted
      ingested := ingested } := by
    have hsame : ∀ x, places { w with
        active := some ⟨job, .ended ended⟩
        erasures := erasures
        deleted := deleted
        ingested := ingested } x = w.places x := by
      intro x
      simp only [places, hactive, Option.toList_some, List.map_cons, List.map_nil]
    refine ⟨rfl, rfl, hingested, fun _ hgone => hgone, fun x _ => (hsame x).le,
      fun x hx hnew hkept => ⟨hsame x, fun hpath => ?_⟩⟩
    by_cases heq : x = job
    · subst heq
      rcases hremoved with hno | hin | hgone
      · exact hno ▸ hpath
      · exact absurd hin hnew
      · exact absurd hgone hkept
    · exact h.path_kept hdeleted hjob (h.acceptedKnown x hx) heq hpath
  refine { h with
    toOrdered := hordered
    known := fun other hother => h.known other (hwithin.holds hother)
    deletedKnown := h.deleted_known hdeleted hjob
    waiting := ?_
    ended := ?_
    once := hsettles.once h
    kept := hsettles.kept_all h }
  · intro other hother
    obtain ⟨hnew, hpending, hidle, htasks, hpath⟩ := h.waiting other hother
    have hne : other ≠ job := fun heq => hidle stage (heq ▸ hactive)
    refine ⟨hnew, hpending, fun stage' hslot => ?_, htasks, fun hmem => hpath ?_⟩
    · cases hslot
      exact hne rfl
    · exact h.path_kept hdeleted hjob (h.known other (.waiting hother)) hne hmem
  · intro other result hslot
    cases hslot
    exact hended

/-- What the tasks that go on know, after a task has ended and its document's entry is
popped. -/
theorem Custody.popped_tasks (h : w.Custody) {task : Nat} {t : RetryTask}
    (htask : w.tasks.find? task = some t) :
    ∀ t' ∈ ((w.endTask task).popRetry t.job.documentId).tasks.rows,
      t'.job.userId ∈ w.erasedOwners ∨ (t'.cancelled = false ∧
        ⟨t'.job, t'.task⟩ ∈ ((w.endTask task).popRetry t.job.documentId).retries.rows) := by
  intro t' ht'
  obtain ⟨hmem, hnumber⟩ := List.mem_filter.mp ht'
  have hrunning : t ∈ w.tasks.rows := Table.find?_mem htask
  rcases h.tasks t' hmem with herased | ⟨hgoing, hentry⟩
  · exact .inl herased
  by_cases hkey : t'.job.documentId = t.job.documentId
  · have hsame : t'.job = t.job :=
      h.eq_of_document (h.known _ (.task t' hmem rfl)) (h.known _ (.task t hrunning rfl)) hkey
    rcases h.tasks t hrunning with herased | ⟨-, hown⟩
    · exact .inl (hsame ▸ herased)
    · have hentries := Table.eq_of_key hentry hown hkey
      have hnumbers : t'.task = t.task := congrArg RetryEntry.task hentries
      exact absurd (hnumbers.trans (Table.find?_key htask)) (of_decide_eq_true hnumber)
  · exact .inr ⟨hgoing, List.mem_filter.mpr ⟨hentry, decide_eq_true hkey⟩⟩

theorem Custody.popped_places (h : w.Custody) {task : Nat} {t : RetryTask}
    (htask : w.tasks.find? task = some t) {job : IngestJob} (hjob : job ∈ w.submitted)
    (hne : job ≠ t.job) :
    (((w.endTask task).popRetry t.job.documentId).retries.rows.map (·.job)).count job =
      (w.retries.rows.map (·.job)).count job := by
  refine count_popRetry (w := w.endTask task) fun hkey => hne ?_
  exact h.eq_of_document hjob (h.known _ (.task t (Table.find?_mem htask) rfl)) hkey

/-- The end of a retry's task whose owner is erased: the job is dropped from the table, and its
original may be gone. -/
theorem popped_custody (h : w.Custody) {task : Nat} {t : RetryTask}
    (htask : w.tasks.find? task = some t) {deleted : List StagedPath}
    (hdeleted : deleted = w.deleted ∨ deleted = w.deleted ++ [t.job.path])
    (hgone : w.Gone t.job.userId)
    (hordered : Ordered (popRetry (endTask { w with deleted := deleted } task) t.job.documentId))
    (hwithin : w.Within (popRetry (endTask { w with deleted := deleted } task) t.job.documentId)) :
    Custody (popRetry (endTask { w with deleted := deleted } task) t.job.documentId) := by
  have hrunning : t ∈ w.tasks.rows := Table.find?_mem htask
  have hjob : t.job ∈ w.submitted := h.known _ (.task t hrunning rfl)
  have hplaces : ∀ x ∈ w.submitted, x ≠ t.job →
      places (popRetry (endTask { w with deleted := deleted } task) t.job.documentId) x =
        w.places x := by
    intro x hx hne
    have hcount := h.popped_places htask hx hne
    exact congrArg (fun n => w.queue.entries.count (some x) +
      (w.active.toList.map (·.job)).count x + n) hcount
  have hsettles :
      w.Settles (popRetry (endTask { w with deleted := deleted } task) t.job.documentId) := by
    refine ⟨rfl, rfl, fun _ hin => hin, fun _ hout => hout, fun x hx => ?_,
      fun x hx _ hkept => ?_⟩
    · by_cases heq : x = t.job
      · subst heq
        refine Nat.add_le_add_left ?_ _
        exact (List.Sublist.map _ List.filter_sublist).count_le _
      · exact (hplaces x hx heq).le
    · have hne : x ≠ t.job := fun heq => hkept (heq ▸ hgone)
      have hx' := h.acceptedKnown x hx
      exact ⟨hplaces x hx' hne, h.path_kept hdeleted hjob hx' hne⟩
  refine { h with
    toOrdered := hordered
    known := fun other hother => h.known other (hwithin.holds hother)
    deletedKnown := h.deleted_known hdeleted hjob
    waiting := ?_
    tasks := h.popped_tasks htask
    once := hsettles.once h
    kept := hsettles.kept_all h }
  intro other hother
  obtain ⟨hnew, hpending, hidle, htasks, hpath⟩ := h.waiting other hother
  refine ⟨hnew, ?_, hidle, fun t' ht' => htasks t' (List.mem_filter.mp ht').1, fun hmem => hpath ?_⟩
  · rintro (hqueued | ⟨entry, hentry, hsame⟩)
    · exact hpending (.inl hqueued)
    · exact hpending (.inr ⟨entry, (List.mem_filter.mp hentry).1, hsame⟩)
  · exact h.path_kept hdeleted hjob (h.known other (.waiting hother))
      (fun heq => htasks t hrunning heq.symm) hmem

/-- A retry's job goes from the table back into the queue, in one step, so it is never in both
places and never in none. -/
theorem requeued_custody (h : w.Custody) {task : Nat} {job : IngestJob}
    (htask : w.tasks.find? task = some ⟨task, job, true, false⟩) (hkept : job.userId ∉ w.erasedOwners)
    (hordered : Ordered
      (popRetry (endTask { w with queue := w.queue.put (some job) } task) job.documentId))
    (hwithin : w.Within
      (popRetry (endTask { w with queue := w.queue.put (some job) } task) job.documentId)) :
    Custody (popRetry (endTask { w with queue := w.queue.put (some job) } task) job.documentId) := by
  have hrunning := Table.find?_mem htask
  have hentry : ⟨job, task⟩ ∈ w.retries.rows :=
    ((h.tasks _ hrunning).resolve_left hkept).2
  have hone := count_retries hentry
  have hplaces : ∀ x ∈ w.submitted,
      places (popRetry (endTask { w with queue := w.queue.put (some job) } task) job.documentId) x =
        w.places x := by
    intro x hx
    show List.count (some x) (w.queue.entries ++ [some job]) + _ + _ = _
    rw [List.count_append, List.count_singleton]
    by_cases heq : x = job
    · subst heq
      have hnone := @count_popRetry_self
        (endTask { w with queue := w.queue.put (some x) } task) x
      simp only [places]
      simp only [beq_self_eq_true, if_true] at hone hnone ⊢
      rw [hnone, hone]
      show List.count (some x) w.queue.entries + 1 + (w.active.toList.map (·.job)).count x + 0 = _
      omega
    · have hne : (some job == some x) = false := by
        simpa using fun hsame : job = x => heq hsame.symm
      rw [hne]
      have hcount := h.popped_places htask hx heq
      exact congrArg (fun n => w.queue.entries.count (some x) +
        (w.active.toList.map (·.job)).count x + n) hcount
  have hsettles : w.Settles
      (popRetry (endTask { w with queue := w.queue.put (some job) } task) job.documentId) :=
    ⟨rfl, rfl, fun _ hin => hin, fun _ hout => hout, fun x hx => (hplaces x hx).le,
      fun x hx _ _ => ⟨hplaces x (h.acceptedKnown x hx), fun hpath => hpath⟩⟩
  refine { h with
    toOrdered := hordered
    known := fun other hother => h.known other (hwithin.holds hother)
    waiting := ?_
    tasks := h.popped_tasks htask
    once := hsettles.once h
    kept := hsettles.kept_all h }
  intro other hother
  obtain ⟨hnew, hpending, hidle, htasks, hpath⟩ := h.waiting other hother
  refine ⟨hnew, ?_, hidle, fun t' ht' => htasks t' (List.mem_filter.mp ht').1, hpath⟩
  rintro (hqueued | ⟨entry, hentry, hsame⟩)
  · rcases List.mem_append.mp hqueued with hold | hlast
    · exact hpending (.inl hold)
    · exact htasks _ hrunning (Option.some.inj (List.mem_singleton.mp hlast)).symm
  · exact hpending (.inr ⟨entry, (List.mem_filter.mp hentry).1, hsame⟩)

/-- `_run` has handled the end of a job that is done with: the slot is free, and the job need not be
anywhere any more. -/
theorem resumed_custody (h : w.Custody) {job : IngestJob} {result : Except Exc Unit} {loop : Loop}
    {deleted : List StagedPath} {queue : TaskQueue (Option IngestJob)}
    (hactive : w.active = some ⟨job, .ended result⟩) (hdone : w.queue.taskDone = some queue)
    (hdeleted : deleted = w.deleted ∨ deleted = w.deleted ++ [job.path])
    (hout : job ∈ w.ingested ∨ w.Gone job.userId)
    (hordered : Ordered { w with
      queue := queue
      active := none
      loop := loop
      deleted := deleted })
    (hwithin : w.Within { w with
      queue := queue
      active := none
      loop := loop
      deleted := deleted }) :
    Custody { w with
      queue := queue
      active := none
      loop := loop
      deleted := deleted } := by
  have hjob : job ∈ w.submitted := h.known job (.active _ hactive)
  have hentries : queue.entries = w.queue.entries := TaskQueue.taskDone_entries hdone
  have hplaces : ∀ x, places { w with
      queue := queue
      active := none
      loop := loop
      deleted := deleted } x + (if job = x then 1 else 0) = w.places x := by
    intro x
    simp only [places, hentries, hactive, Option.toList_none, Option.toList_some, List.map_nil,
      List.map_cons, List.count_nil, List.count_singleton, beq_iff_eq]
    omega
  have hsettles : w.Settles { w with
      queue := queue
      active := none
      loop := loop
      deleted := deleted } := by
    refine ⟨rfl, rfl, fun _ hin => hin, fun _ hgone => hgone, fun x _ => ?_,
      fun x hx hnew hkept => ?_⟩
    · exact Nat.le_of_add_right_le (hplaces x).le
    · have hne : x ≠ job := by
        rintro rfl
        exact hout.elim hnew hkept
      have hcount := hplaces x
      rw [if_neg (fun heq => hne heq.symm), Nat.add_zero] at hcount
      exact ⟨hcount, h.path_kept hdeleted hjob (h.acceptedKnown x hx) hne⟩
  refine { h with
    toOrdered := hordered
    known := fun other hother => h.known other (hwithin.holds hother)
    deletedKnown := h.deleted_known hdeleted hjob
    waiting := ?_
    ended := fun other result hslot => (by cases hslot)
    once := hsettles.once h
    kept := hsettles.kept_all h }
  intro other hother
  obtain ⟨hnew, hpending, hidle, htasks, hpath⟩ := h.waiting other hother
  refine ⟨hnew, ?_, fun _ hslot => (by cases hslot), htasks, fun hmem => hpath ?_⟩
  · rintro (hqueued | hdelayed)
    · exact hpending (.inl (hentries ▸ hqueued))
    · exact hpending (.inr hdelayed)
  · exact h.path_kept hdeleted hjob (h.known other (.waiting hother))
      (fun heq => hidle _ (heq ▸ hactive)) hmem

/-- `_run` has put the job of its slot into the table of retries.  The table has one entry for each
document, and no other job is for this one, so none is overwritten. -/
theorem scheduled_custody (h : w.Custody) {job : IngestJob} {result : Except Exc Unit}
    {queue : TaskQueue (Option IngestJob)} (hactive : w.active = some ⟨job, .ended result⟩)
    (hdone : w.queue.taskDone = some queue)
    (hordered : Ordered { w with
      queue := queue
      active := none
      retries := w.retries.set ⟨job, w.nextTask⟩
      tasks := w.tasks.set ⟨w.nextTask, job, false, false⟩
      nextTask := w.nextTask + 1 })
    (hwithin : w.Within { w with
      queue := queue
      active := none
      retries := w.retries.set ⟨job, w.nextTask⟩
      tasks := w.tasks.set ⟨w.nextTask, job, false, false⟩
      nextTask := w.nextTask + 1 }) :
    Custody { w with
      queue := queue
      active := none
      retries := w.retries.set ⟨job, w.nextTask⟩
      tasks := w.tasks.set ⟨w.nextTask, job, false, false⟩
      nextTask := w.nextTask + 1 } := by
  have hjob : job ∈ w.submitted := h.known job (.active _ hactive)
  have hentries : queue.entries = w.queue.entries := TaskQueue.taskDone_entries hdone
  -- an entry of the same document would be a second place of the job
  have hfresh : w.retries.find? job.documentId = none := by
    refine Table.find?_eq_none_iff.mpr fun entry hentry hkey => ?_
    have hsame : entry.job = job :=
      h.eq_of_document (h.known _ (.delayed entry hentry rfl)) hjob hkey
    have hone := count_retries hentry
    have htwo := h.once job hjob
    rw [hsame] at hone
    simp only [places, hactive, Option.toList_some, List.map_cons, List.map_nil,
      List.count_singleton, hone, beq_self_eq_true, if_true] at htwo
    omega
  have hrows : (w.retries.set ⟨job, w.nextTask⟩).rows = w.retries.rows ++ [⟨job, w.nextTask⟩] :=
    Table.set_rows_of_fresh hfresh
  have hplaces : ∀ x, places { w with
      queue := queue
      active := none
      retries := w.retries.set ⟨job, w.nextTask⟩
      tasks := w.tasks.set ⟨w.nextTask, job, false, false⟩
      nextTask := w.nextTask + 1 } x = w.places x := by
    intro x
    simp only [places, hentries, hactive, hrows, Option.toList_none, Option.toList_some,
      List.map_nil, List.map_cons, List.map_append, List.count_nil, List.count_append]
    omega
  have hsettles : w.Settles { w with
      queue := queue
      active := none
      retries := w.retries.set ⟨job, w.nextTask⟩
      tasks := w.tasks.set ⟨w.nextTask, job, false, false⟩
      nextTask := w.nextTask + 1 } :=
    ⟨rfl, rfl, fun _ hin => hin, fun _ hgone => hgone, fun x _ => (hplaces x).le,
      fun x _ _ _ => ⟨hplaces x, fun hpath => hpath⟩⟩
  refine { h with
    toOrdered := hordered
    known := fun other hother => h.known other (hwithin.holds hother)
    waiting := ?_
    tasks := ?_
    ended := fun other result hslot => (by cases hslot)
    once := hsettles.once h
    kept := hsettles.kept_all h }
  · intro other hother
    obtain ⟨hnew, hpending, hidle, htasks, hpath⟩ := h.waiting other hother
    have hne : other ≠ job := fun heq => hidle _ (heq ▸ hactive)
    refine ⟨hnew, ?_, fun _ hslot => (by cases hslot), fun t ht => ?_, hpath⟩
    · rintro (hqueued | ⟨entry, hentry, hsame⟩)
      · exact hpending (.inl (hentries ▸ hqueued))
      · rcases Table.mem_set hentry with rfl | hold
        · exact hne hsame.symm
        · exact hpending (.inr ⟨entry, hold, hsame⟩)
    · rcases Table.mem_set ht with rfl | hold
      · exact fun heq => hne heq.symm
      · exact htasks t hold
  · intro t ht
    rcases Table.mem_set ht with rfl | hold
    · exact .inr ⟨rfl, Table.mem_set_self _ _⟩
    · refine (h.tasks t hold).imp_right fun ⟨hgoing, hentry⟩ => ⟨hgoing, ?_⟩
      show _ ∈ (w.retries.set ⟨job, w.nextTask⟩).rows
      rw [hrows]
      exact List.mem_append_left _ hentry

/-- In `erase_user` the jobs of the other owners stay in their places. -/
theorem Spares.places {userId : Uuid} (h : w.Spares userId w') (hactive : w'.active = w.active)
    {job : IngestJob} (hother : job.userId ≠ userId) : w'.places job = w.places job := by
  have hkeeps : keeps userId (some job) = true := decide_eq_true hother
  have hqueue : w'.queue.entries.count (some job) = w.queue.entries.count (some job) := by
    rw [← List.count_filter hkeeps, h.queue, List.count_filter hkeeps]
  have hfilter : ∀ v : IngestWorker,
      ((v.retries.rows.filter (·.job.userId ≠ userId)).map (·.job)).count job =
        (v.retries.rows.map (·.job)).count job := by
    intro v
    rw [List.count_eq_countP, List.count_eq_countP, List.countP_map, List.countP_map,
      List.countP_filter]
    apply List.countP_congr
    intro entry _
    simp only [Function.comp_apply, beq_iff_eq, Bool.and_eq_true, decide_eq_true_eq]
    exact ⟨fun hboth => hboth.1, fun hsame => ⟨hsame, by rw [hsame]; exact hother⟩⟩
  have hretries := hfilter w'
  rw [h.retries, hfilter w] at hretries
  rw [IngestWorker.places, IngestWorker.places, hqueue, hactive, hretries]

/-- The call of `erase_user` drops the jobs of its owner from the queue and from the table, and
those only; the jobs of an erased owner need no place. -/
theorem erased_custody (h : w.Custody) {userId : Uuid}
    (hstep : w.eraseUser stuck userId = some w') (hordered : w'.Ordered) : w'.Custody := by
  have hspares := eraseUser_spares h.balanced (fun e he => (h.entries e he).2) hstep
  have hwithin := eraseUser_within h.balanced hstep
  have hshrinks := eraseUser_shrinks h.balanced hstep
  obtain ⟨queue, retries, tasks, deleted, progress, rfl, hqueue⟩ :=
    eraseUser_frame h.balanced hstep
  have hpending : ∀ job, w.Pending job → job ∈ w.submitted := by
    rintro job (hqueued | ⟨entry, hentry, rfl⟩)
    · exact h.known job (.queued hqueued)
    · exact h.known _ (.delayed entry hentry rfl)
  have hgone : ∀ owner, w.Gone owner → Gone { w with
      queue := queue
      retries := retries
      tasks := tasks
      deleted := deleted
      erasedOwners := w.erasedOwners.insert userId
      erasures := w.erasures ++ [⟨userId, progress⟩] } owner :=
    fun owner hout => hout.imp_right List.mem_insert_of_mem
  have hremoved : ∀ job ∈ w.submitted, job.userId ≠ userId ∨ ¬ w.Pending job →
      job.path ∈ deleted → job.path ∈ w.deleted := by
    intro job hjob hout hpath
    rcases hspares.deleted job.path hpath with hold | ⟨other, hother, howner, hsame⟩
    · exact hold
    · obtain rfl := h.eq_of_path (hpending other hother) hjob hsame
      exact hout.elim (fun hne => absurd howner hne) (fun hno => absurd hother hno)
  have hsettles : w.Settles { w with
      queue := queue
      retries := retries
      tasks := tasks
      deleted := deleted
      erasedOwners := w.erasedOwners.insert userId
      erasures := w.erasures ++ [⟨userId, progress⟩] } := by
    refine ⟨rfl, rfl, fun _ hin => hin, hgone, fun x _ => ?_, fun x hx _ hkept => ?_⟩
    · refine Nat.add_le_add (Nat.add_le_add_right (hqueue.count_le _) _) ?_
      by_cases hmem : x ∈ retries.rows.map (·.job)
      · obtain ⟨entry, hentry, rfl⟩ := List.mem_map.mp hmem
        rw [count_retries (hshrinks.retries entry hentry)]
        refine (List.nodup_iff_count_le_one.mp ?_) _
        refine List.Nodup.of_map (fun job : IngestJob => job.documentId) ?_
        rw [List.map_map]
        exact retries.keys_nodup
      · rw [List.count_eq_zero.mpr hmem]
        exact Nat.zero_le _
    · have hne : x.userId ≠ userId :=
        fun heq => hkept (.inr (heq ▸ List.mem_insert_self))
      exact ⟨hspares.places rfl hne, hremoved x (h.acceptedKnown x hx) (.inl hne)⟩
  refine { h with
    toOrdered := hordered
    known := fun other hother => h.known other (hwithin.holds hother)
    deletedKnown := ?_
    waiting := ?_
    tasks := ?_
    ended := fun job result hslot => (h.ended job result hslot).imp_right (.imp_right (hgone _))
    once := hsettles.once h
    kept := hsettles.kept_all h }
  · intro path hpath
    rcases hspares.deleted path hpath with hold | ⟨other, hother, -, hsame⟩
    · exact h.deletedKnown path hold
    · exact ⟨other, hpending other hother, hsame⟩
  · intro other hother
    obtain ⟨hnew, hno, hidle, htasks, hpath⟩ := h.waiting other hother
    refine ⟨hnew, ?_, hidle, fun t ht => ?_,
      fun hmem => hpath (hremoved other (h.known other (.waiting hother)) (.inr hno) hmem)⟩
    · rintro (hqueued | ⟨entry, hentry, hsame⟩)
      · exact hno (.inl (hqueue.subset hqueued))
      · exact hno (.inr ⟨entry, hshrinks.retries entry hentry, hsame⟩)
    · obtain ⟨t', ht', -, hjob⟩ := hshrinks.tasks t ht
      rw [hjob]
      exact htasks t' ht'
  · intro t ht
    obtain ⟨t', ht', htask, hjob⟩ := hshrinks.tasks t ht
    rcases h.tasks t' ht' with herased | ⟨hgoing, hentry⟩
    · exact .inl (hjob ▸ List.mem_insert_of_mem herased)
    by_cases howner : t'.job.userId = userId
    · refine .inl ?_
      rw [hjob, howner]
      exact List.mem_insert_self
    · have hsame : t = t' := Table.eq_of_key ht (hspares.tasks t' ht' howner) htask
      subst hsame
      have hother : (⟨t.job, t.task⟩ : RetryEntry) ∈
          w.retries.rows.filter (·.job.userId ≠ userId) :=
        List.mem_filter.mpr ⟨hentry, decide_eq_true howner⟩
      rw [← hspares.retries] at hother
      exact .inr ⟨hgoing, (List.mem_filter.mp hother).1⟩

end Steps

/-! ## Runs without trouble -/

theorem initial_custody : initial.Custody where
  toOrdered := initial_ordered
  going := rfl
  distinct _ h := by cases h
  known _ h := absurd h initial_holds
  acceptedKnown _ h := by cases h
  deletedKnown _ h := by cases h
  waits := List.nodup_nil
  waiting _ h := by cases h
  tasks _ h := by cases h
  ended _ _ h := by cases h
  once _ h := by cases h
  kept _ h := by cases h

/-- Custody holds after every step in which no admission check of the worker's own tasks fails with
a transient error.  The cases are the steps of the event loop; such an error is what would let a
retry's task end with its job in no place. -/
theorem step_custody {w w' : IngestWorker} {stuck : List StagedPath} {event : WorkerEvent}
    (h : w.Custody) (hserved : w.Served event) (huntroubled : Untroubled event)
    (hstep : w.step stuck event = some w') : w'.Custody := by
  have hordered := step_ordered h.toOrdered hstep
  have hwithin := fun hnew => step_within h.balanced hstep hnew
  have hstays : ¬ w.stopping := by rw [h.going]; exact Bool.false_ne_true
  cases move_of_step hstep with
  | enqueue job => exact enqueue_custody h hserved hordered
  | accepted job hwaiting =>
      exact accepted_custody h hwaiting hordered (hwithin (fun _ hne => by cases hne))
  | refused job answer deleted hwaiting hmay hdeleted =>
      have hjob := h.known job (.waiting hwaiting)
      have hwithin := hwithin (fun _ hne => by cases hne)
      refine { h with
        toOrdered := hordered
        known := fun other hother => h.known other (hwithin.holds hother)
        deletedKnown := h.deleted_known hdeleted hjob
        waits := h.waits.erase job
        waiting := ?_
        kept := ?_ }
      · intro other hother
        obtain ⟨hne, hmem⟩ := h.waits.mem_erase_iff.mp hother
        obtain ⟨hnew, hpending, hidle, htasks, hpath⟩ := h.waiting other hmem
        exact ⟨hnew, hpending, hidle, htasks, fun hin =>
          hpath (h.path_kept hdeleted hjob (h.known other (.waiting hmem)) hne hin)⟩
      · refine kept_of h.kept rfl (fun _ hin => hin) (fun _ hout => hout) fun other hother _ _ =>
          ⟨rfl, h.path_kept hdeleted hjob (h.acceptedKnown other hother) ?_⟩
        exact fun heq => (h.waiting job hwaiting).1 (heq ▸ hother)
  | taken job rest hidle hentries =>
      have hwithin := hwithin (fun _ hne => by cases hne)
      have hplaces : ∀ x, places { w with
          queue := { w.queue with entries := rest }
          active := some ⟨job, .entering⟩ } x = w.places x := by
        intro x
        simp only [places, hentries, hidle, Option.toList_none, Option.toList_some, List.map_nil,
          List.map_cons, List.count_nil, List.count_cons, beq_iff_eq, Option.some.injEq]
        omega
      refine { h with
        toOrdered := hordered
        known := fun other hother => h.known other (hwithin.holds hother)
        waiting := ?_
        ended := fun other result hslot => (by cases hslot)
        once := fun x hx => (hplaces x).trans_le (h.once x hx)
        kept := kept_of h.kept rfl (fun _ hin => hin) (fun _ hout => hout)
          (fun x _ _ _ => ⟨hplaces x, fun hpath => hpath⟩) }
      intro other hother
      obtain ⟨hnew, hpending, -, htasks, hpath⟩ := h.waiting other hother
      refine ⟨hnew, fun hin => hpending (hin.imp_left fun hmem => ?_), fun stage hslot => ?_,
        htasks, hpath⟩
      · exact hentries ▸ List.mem_cons_of_mem _ hmem
      · cases hslot
        exact hpending (.inl (hentries ▸ List.mem_cons_self))
  | closed rest queue hidle hentries hdone =>
      have hwithin := hwithin (fun _ hne => by cases hne)
      have hqueue : queue.entries = rest := TaskQueue.taskDone_entries hdone
      have hplaces : ∀ x, places { w with
          queue := queue
          loop := .done } x = w.places x := by
        intro x
        simp [places, hentries, hqueue]
      refine { h with
        toOrdered := hordered
        known := fun other hother => h.known other (hwithin.holds hother)
        waiting := ?_
        once := fun x hx => (hplaces x).trans_le (h.once x hx)
        kept := kept_of h.kept rfl (fun _ hin => hin) (fun _ hout => hout)
          (fun x _ _ _ => ⟨hplaces x, fun hpath => hpath⟩) }
      intro other hother
      obtain ⟨hnew, hpending, hslot, htasks, hpath⟩ := h.waiting other hother
      refine ⟨hnew, fun hin => hpending (hin.imp_left fun hmem => ?_), hslot, htasks, hpath⟩
      rw [hentries]
      exact List.mem_cons_of_mem _ (hqueue ▸ hmem)
  | entered job hactive =>
      have hwithin := hwithin (fun _ hne => by cases hne)
      have hplaces : ∀ x, places { w with active := some ⟨job, .ingesting⟩ } x = w.places x := by
        intro x
        simp only [places, hactive, Option.toList_some, List.map_cons, List.map_nil]
      refine { h with
        toOrdered := hordered
        known := fun other hother => h.known other (hwithin.holds hother)
        waiting := ?_
        ended := fun other result hslot => (by cases hslot)
        once := fun x hx => (hplaces x).trans_le (h.once x hx)
        kept := kept_of h.kept rfl (fun _ hin => hin) (fun _ hout => hout)
          (fun x _ _ _ => ⟨hplaces x, fun hpath => hpath⟩) }
      intro other hother
      obtain ⟨hnew, hpending, hslot, htasks, hpath⟩ := h.waiting other hother
      refine ⟨hnew, hpending, fun stage hsame => ?_, htasks, hpath⟩
      cases hsame
      exact hslot _ hactive
  | turnedAway job e ended deleted hactive hmay hends =>
      have hgone : w.Gone job.userId := .inl (hmay (congrArg _ (huntroubled e rfl)))
      exact ended_custody h hactive hends.removed (fun _ hin => hin) (.inr (.inr hgone))
        (.inr (.inr hgone)) hordered (hwithin (fun _ hne => by cases hne))
  | returned job ended deleted hactive hends =>
      have hin : job ∈ w.ingested ++ [job] := List.mem_append_right _ List.mem_cons_self
      exact ended_custody h hactive hends.removed (fun _ hin => List.mem_append_left _ hin)
        (.inr (.inl hin)) (.inr (.inl hin)) hordered (hwithin (fun _ hne => by cases hne))
  | raised job e ended deleted hactive hmay hends =>
      rcases hserved e rfl with hretry | rfl
      · obtain ⟨rfl, hsame⟩ := hends.kept hretry
        exact ended_custody h hactive hends.removed (fun _ hin => hin) (.inl hretry)
          (.inl hsame) hordered (hwithin (fun _ hne => by cases hne))
      · have hgone : w.Gone job.userId := .inl (hmay rfl)
        exact ended_custody h hactive hends.removed (fun _ hin => hin) (.inr (.inr hgone))
          (.inr (.inr hgone)) hordered (hwithin (fun _ hne => by cases hne))
  | resumed job result loop deleted queue hactive hdone hdeleted hdropped =>
      refine resumed_custody h hactive hdone (hdeleted.imp_right fun hboth => hboth.1) ?_ hordered
        (hwithin (fun _ hne => by cases hne))
      rcases h.ended job result hactive with hretry | hin | hout
      · exact .inr (.inr ((hdropped hretry).resolve_right hstays))
      · exact .inl hin
      · exact .inr hout
  | scheduled job reason queue hactive hdone =>
      exact scheduled_custody h hactive hdone hordered (hwithin (fun _ hne => by cases hne))
  | woken task job htask =>
      have hwithin := hwithin (fun _ hne => by cases hne)
      refine { h with
        toOrdered := hordered
        known := fun other hother => h.known other (hwithin.holds hother)
        waiting := ?_
        tasks := ?_ }
      · intro other hother
        obtain ⟨hnew, hpending, hslot, htasks, hpath⟩ := h.waiting other hother
        refine ⟨hnew, hpending, hslot, fun t ht => ?_, hpath⟩
        obtain ⟨t', ht', rfl⟩ := List.mem_map.mp ht
        exact htasks t' ht'
      · intro t ht
        obtain ⟨t', ht', rfl⟩ := List.mem_map.mp ht
        exact h.tasks t' ht'
  | abandoned _ _ _ hstopping => exact absurd hstopping hstays
  | requeued task job htask hkept =>
      exact requeued_custody h htask hkept hordered (hwithin (fun _ hne => by cases hne))
  | lost task job answer deleted htask hmay hanswer hdeleted =>
      refine popped_custody h htask hdeleted ?_ hordered (hwithin (fun _ hne => by cases hne))
      cases answer with
      | ok _ => exact .inr (hanswer rfl)
      | error e => exact .inl (hmay (congrArg _ (huntroubled e rfl)))
  | unwound task t htask hcancelled =>
      refine popped_custody h htask (.inl rfl) ?_ hordered (hwithin (fun _ hne => by cases hne))
      refine .inr ((h.tasks t (Table.find?_mem htask)).resolve_right fun hgoing => ?_)
      rw [hgoing.1] at hcancelled
      cases hcancelled
  | unbegun task t htask hcancelled =>
      have hwithin := hwithin (fun _ hne => by cases hne)
      refine { h with
        toOrdered := hordered
        known := fun other hother => h.known other (hwithin.holds hother)
        waiting := ?_
        tasks := fun t' ht' => h.tasks t' (List.mem_filter.mp ht').1 }
      intro other hother
      obtain ⟨hnew, hpending, hslot, htasks, hpath⟩ := h.waiting other hother
      exact ⟨hnew, hpending, hslot, fun t' ht' => htasks t' (List.mem_filter.mp ht').1, hpath⟩
  | erased userId w' herase => exact erased_custody h herase hordered
  | gathered | start =>
      have hwithin := hwithin (fun _ hne => by cases hne)
      exact { h with
        toOrdered := hordered
        going := by first | exact h.going | rfl
        known := fun other hother => h.known other (hwithin.holds hother) }
  | fence userId =>
      have hwithin := hwithin (fun _ hne => by cases hne)
      have hgone : ∀ owner, w.Gone owner → Gone { w with fenced := userId :: w.fenced } owner :=
        fun owner hout => hout.imp_left (List.mem_cons_of_mem userId)
      exact { h with
        toOrdered := hordered
        known := fun other hother => h.known other (hwithin.holds hother)
        ended := fun job result hslot => (h.ended job result hslot).imp_right (.imp_right (hgone _))
        kept := kept_of h.kept rfl (fun _ hin => hin) hgone (fun _ _ _ _ => ⟨rfl, fun hp => hp⟩) }
  | stop => exact hserved.elim
  | sentinel hstopping | stopped hstopping => exact absurd hstopping hstays

/-- In every run before `stop` in which no admission check of the worker's own tasks fails with
a transient error, every accepted job is in one place with its original, unless its run has
returned or its owner is erased. -/
theorem accepted_jobs_kept {w : IngestWorker} {steps : List WorkerStep}
    (hrun : Trace Steps initial steps w) (hserved : ∀ st ∈ steps, st.before.Served st.call.2)
    (huntroubled : ∀ st ∈ steps, Untroubled st.call.2) : w.Kept := by
  have hcustody : w.Custody := by
    refine hrun.holds_through (P := Custody) initial_custody fun st hst hstep hbefore => ?_
    exact step_custody hbefore (hserved st hst) (huntroubled st hst) hstep
  exact hcustody.kept

/-- A run of a new worker in which every deletion succeeds and every step meets a condition. -/
def runWhile (P : IngestWorker → WorkerEvent → Prop) [∀ w event, Decidable (P w event)]
    (events : List WorkerEvent) : Option IngestWorker :=
  (events.map (fun event => (([] : List StagedPath), event))).foldlM
    (fun w c => if P w c.2 then w.step c.1 c.2 else none) initial

theorem exists_runWhile {P : IngestWorker → WorkerEvent → Prop} [∀ w event, Decidable (P w event)]
    {events : List WorkerEvent} {w : IngestWorker} (h : runWhile P events = some w) :
    ∃ steps, Trace Steps initial steps w ∧ ∀ st ∈ steps, P st.before st.call.2 :=
  exists_trace_of_guarded (P := fun w (c : List StagedPath × WorkerEvent) => P w c.2) h

/-- An upload goes through an outage of the storage and back into the queue. -/
def outageRun : List WorkerEvent :=
  [.start, .enqueue (uploadOf 10), .admitted (uploadOf 10) (.ok ()), .dequeue, .entered (.ok ()),
    .ingested (.error (.retryableIngest "storage_encryption_unavailable")), .resume, .wake 0,
    .retried 0 (.ok ())]

theorem accepted_jobs_kept_outage :
    ∃ w : IngestWorker, runWhile (fun w event => w.Served event ∧ Untroubled event) outageRun =
      some w ∧ w.queue.entries = [some (uploadOf 10)] ∧ w.Kept := by
  have hend : (runWhile (fun w event => w.Served event ∧ Untroubled event) outageRun).map
      (fun w => w.queue.entries) = some [some (uploadOf 10)] := by decide +kernel
  obtain ⟨w, hw, hqueue⟩ := Option.map_eq_some_iff.mp hend
  obtain ⟨steps, hrun, hguard⟩ := exists_runWhile hw
  exact ⟨w, hw, hqueue, accepted_jobs_kept hrun (fun st hst => (hguard st hst).1)
    (fun st hst => (hguard st hst).2)⟩

/-- The database is gone when `_ingest_job` checks the admission of an accepted job: its
original is deleted, and nothing retries it. -/
def lostConnection : List WorkerEvent :=
  [.start, .enqueue (uploadOf 10), .admitted (uploadOf 10) (.ok ()), .dequeue,
    .entered (.error (.database "connection lost"))]

theorem transient_error_loses_job :
    ¬ ∀ (w : IngestWorker) (steps : List WorkerStep), Trace Steps initial steps w →
      (∀ st ∈ steps, st.before.Served st.call.2) → w.Kept := by
  intro hclaim
  have hend : (runWhile Served lostConnection).map (fun w => (w.accepted, w.ingested,
      w.fenced ++ w.erasedOwners, w.deleted)) =
        some ([uploadOf 10], [], [], [(uploadOf 10).path]) := by decide +kernel
  obtain ⟨w, hw, hfields⟩ := Option.map_eq_some_iff.mp hend
  obtain ⟨steps, hrun, hserved⟩ := exists_runWhile hw
  have haccepted : w.accepted = [uploadOf 10] := congrArg Prod.fst hfields
  have hingested : w.ingested = [] := congrArg (fun x => x.2.1) hfields
  have hgone : w.fenced ++ w.erasedOwners = [] := congrArg (fun x => x.2.2.1) hfields
  have hdeleted : w.deleted = [(uploadOf 10).path] := congrArg (fun x => x.2.2.2) hfields
  have hjob : uploadOf 10 ∈ w.accepted := haccepted ▸ List.mem_cons_self
  rcases hclaim w steps hrun hserved (uploadOf 10) hjob with hin | hout | ⟨-, hpath⟩
  · rw [hingested] at hin
    cases hin
  · have hmem : (uploadOf 10).userId ∈ w.fenced ++ w.erasedOwners := List.mem_append.mpr hout
    rw [hgone] at hmem
    cases hmem
  · exact hpath (hdeleted ▸ List.mem_cons_self)

end IngestWorker

end PortRag.Ingest
