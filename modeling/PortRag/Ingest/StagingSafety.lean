import PortRag.Ingest.StagingRoot

set_option autoImplicit false

/-!
# Who deletes a staged original, and who waits for whom

The invariant of the shared staging root: locks are held apart, a request or a job runs only
beside its serving process, no two tasks are one process, and the files are in order.

From it, a start-up deletes the originals of dead instances only, and only while no other task has
a lock on their owner; and tasks that wait for one another's locks never wait in a circle.
-/

namespace PortRag.Ingest

open PortRag.Foundation

/-- The order in which the locks are taken: an owner's before `.startup.lock`, and a marker last. -/
def LockFile.height : LockFile → Nat
  | .owner _ => 3
  | .startup => 2
  | .marker _ => 1

namespace StagingRoot

/-- What holds of the root in every state. -/
structure Sound (s : StagingRoot) : Prop where
  apart : stagingLocks.Apart s.tasks
  served : ∀ t ∈ s.tasks.rows, t.point.isProcess = false → s.serves t.instanceId = true
  single : ∀ a ∈ s.tasks.rows, ∀ b ∈ s.tasks.rows, a.point.isProcess = true →
    b.point.isProcess = true → a.instanceId = b.instanceId → a = b
  known : ∀ t ∈ s.tasks.rows, t.instanceId ∈ s.used
  /-- A process that does not serve yet has no directory yet. -/
  unwritten : ∀ t ∈ s.tasks.rows, t.point.isProcess = true → t.point ≠ .start .serving →
    ∀ d ∈ s.files.directories, d.2 ≠ t.instanceId
  inOrder : s.files.InOrder s.used

section Invariant

variable {active : Uuid → Bool} {s s' : StagingRoot}

theorem Initial.sound (h : s.Initial) : s.Sound := by
  obtain ⟨hempty, hfiles⟩ := h
  have hnone : ∀ t, t ∉ s.tasks.rows := by
    rw [hempty]
    exact fun t => List.not_mem_nil
  exact ⟨hempty ▸ stagingLocks.apart_empty, fun t ht => absurd ht (hnone t),
    fun a ha => absurd ha (hnone a), fun t ht => absurd ht (hnone t),
    fun t ht => absurd ht (hnone t), hfiles⟩

theorem mem_goOn {t q : StagingTask} {next : Option Point} {files : StagingFiles} :
    q ∈ (s.goOn t next files).tasks.rows ↔
      (∃ p, next = some p ∧ q = { t with point := p }) ∨
        (q ∈ s.tasks.rows ∧ q.id ≠ t.id) := by
  cases next with
  | none =>
      simp only [goOn, Table.keep_rows, List.mem_filter, decide_eq_true_eq, reduceCtorEq, false_and,
        exists_false, false_or]
  | some p =>
      simp only [goOn, Table.mem_set_iff, Option.some.injEq, exists_eq_left']

theorem mem_quit {q : StagingTask} {instanceId : Nat} :
    q ∈ (s.quit instanceId).tasks.rows ↔ q ∈ s.tasks.rows ∧ q.instanceId ≠ instanceId := by
  rw [quit, Table.keep_rows, List.mem_filter, decide_eq_true_eq]

/-- A task may be set that takes no lock that is not free and replaces no serving process. -/
theorem Sound.set (h : s.Sound) {r : StagingTask} {files : StagingFiles} {used : List Nat}
    (hheld : ∀ lock ∈ stagingLocks.held r,
      (∃ old ∈ s.tasks.rows, old.id = r.id ∧ lock ∈ stagingLocks.held old) ∨
        s.free r.id lock = true)
    (hold : ∀ old ∈ s.tasks.rows, old.id = r.id → old.point ≠ .start .serving)
    (hserved : r.point.isProcess = false → s.serves r.instanceId = true)
    (hsingle : r.point.isProcess = true → ∀ a ∈ s.tasks.rows, a.id ≠ r.id →
      a.point.isProcess = true → a.instanceId ≠ r.instanceId)
    (hunwritten : r.point.isProcess = true → r.point ≠ .start .serving →
      ∀ d ∈ s.files.directories, d.2 ≠ r.instanceId)
    (hdirectories : ∀ d ∈ files.directories, d ∈ s.files.directories ∨
      (r.point.isProcess = false ∧ d.2 = r.instanceId))
    (hused : s.used ⊆ used) (hknown : r.instanceId ∈ used) (hfiles : files.InOrder used) :
    Sound ⟨files, s.tasks.set r, used⟩ where
  apart := h.apart.set hheld
  served := by
    have hkept : ∀ instanceId, s.serves instanceId = true →
        serves ⟨files, s.tasks.set r, used⟩ instanceId = true := by
      intro instanceId hserves
      obtain ⟨m, hm, hinstance, hserving⟩ := serves_iff.mp hserves
      have hne : m.id ≠ r.id := fun hid => hold m hm hid hserving
      exact serves_iff.mpr ⟨m, Table.mem_set_iff.mpr (.inr ⟨hm, hne⟩), hinstance, hserving⟩
    intro t ht hrequest
    rcases Table.mem_set_iff.mp ht with rfl | ⟨ht, -⟩
    · exact hkept _ (hserved hrequest)
    · exact hkept _ (h.served t ht hrequest)
  single := by
    intro a ha b hb hpa hpb hsame
    rcases Table.mem_set_iff.mp ha with rfl | ⟨hother, hane⟩
    · rcases Table.mem_set_iff.mp hb with rfl | ⟨hb, hbne⟩
      · rfl
      · exact absurd hsame.symm (hsingle hpa b hb hbne hpb)
    · rcases Table.mem_set_iff.mp hb with hb | ⟨hb, -⟩
      · subst hb
        exact absurd hsame (hsingle hpb a hother hane hpa)
      · exact h.single a hother b hb hpa hpb hsame
  known := by
    intro t ht
    rcases Table.mem_set_iff.mp ht with rfl | ⟨ht, -⟩
    · exact hknown
    · exact hused (h.known t ht)
  unwritten := by
    intro t ht hprocess hstarting d hd
    rcases hdirectories d hd with hthere | ⟨hrequest, hd⟩
    · rcases Table.mem_set_iff.mp ht with rfl | ⟨ht, -⟩
      · exact hunwritten hprocess hstarting d hthere
      · exact h.unwritten t ht hprocess hstarting d hthere
    · rcases Table.mem_set_iff.mp ht with rfl | ⟨ht, -⟩
      · exact absurd (hrequest.symm.trans hprocess) (by decide)
      · -- the directory is that of a process that serves, so of no other one
        intro hsame
        obtain ⟨m, hm, hinstance, hserving⟩ := serves_iff.mp (hserved hrequest)
        have hpm : m.point.isProcess = true := by rw [hserving]; rfl
        have heq := h.single m hm t ht hpm hprocess (hinstance.trans (hd.symm.trans hsame))
        exact hstarting (heq ▸ hserving)
  inOrder := hfiles

/-- Tasks may end, as long as no serving process ends before its requests and jobs. -/
theorem Sound.keep (h : s.Sound) {p : StagingTask → Bool} {files : StagingFiles}
    (hkept : ∀ t ∈ s.tasks.rows, p t = true → t.point.isProcess = false →
      ∀ m ∈ s.tasks.rows, m.instanceId = t.instanceId → m.point = .start .serving → p m = true)
    (hdirectories : files.directories ⊆ s.files.directories) (hfiles : files.InOrder s.used) :
    Sound ⟨files, s.tasks.keep p, s.used⟩ where
  apart := h.apart.keep p
  served := by
    intro t ht hrequest
    obtain ⟨ht, hpt⟩ := List.mem_filter.mp ht
    obtain ⟨m, hm, hinstance, hserving⟩ := serves_iff.mp (h.served t ht hrequest)
    have hpm := hkept t ht hpt hrequest m hm hinstance hserving
    exact serves_iff.mpr ⟨m, List.mem_filter.mpr ⟨hm, hpm⟩, hinstance, hserving⟩
  single := fun a ha b hb =>
    h.single a (List.mem_filter.mp ha).1 b (List.mem_filter.mp hb).1
  known := fun t ht => h.known t (List.mem_filter.mp ht).1
  unwritten := fun t ht hprocess hstarting d hd =>
    h.unwritten t (List.mem_filter.mp ht).1 hprocess hstarting d (hdirectories hd)
  inOrder := hfiles

/-- A task that goes on keeps the invariant: the locks it takes were free, and what it deletes it
has the locks for. -/
theorem Sound.goOn (h : s.Sound) {t : StagingTask} {action : Action} {next : Option Point}
    {files : StagingFiles} (ht : t ∈ s.tasks.rows) (hact : Acted active s t action next files) :
    (s.goOn t next files).Sound := by
  have hfiles := hact.inOrder h.inOrder (h.known t ht)
  have hself : ∀ old ∈ s.tasks.rows, old.id = t.id → old = t :=
    fun old hold hid => Table.eq_of_key hold ht hid
  cases next with
  | none =>
      refine h.keep ?_ ?_ hfiles
      · intro _ _ _ _ m hm _ hserving
        refine decide_eq_true fun hid => ?_
        exact hact.not_serving (hself m hm hid ▸ hserving)
      · intro d hd
        rcases hact.directories d hd with hd | ⟨-, -, hends⟩
        · exact hd
        · exact absurd rfl hends
  | some p =>
      refine h.set (r := { t with point := p }) ?_ ?_ ?_ ?_ ?_ ?_ (fun _ hi => hi) (h.known t ht)
        hfiles
      · intro lock hlock
        rcases hact.held lock hlock with hown | hfree
        · exact .inl ⟨t, ht, rfl, hown⟩
        · exact .inr hfree
      · intro old hold hid hserving
        exact hact.not_serving (hself old hold hid ▸ hserving)
      · intro hrequest
        exact h.served t ht (hact.isProcess ▸ hrequest)
      · intro hprocess a ha hne hpa hsame
        have heq := h.single a ha t ht hpa (hact.isProcess ▸ hprocess) hsame
        exact hne (heq ▸ rfl)
      · exact fun hprocess _ =>
          h.unwritten t ht (hact.isProcess ▸ hprocess) hact.not_serving
      · intro d hd
        rcases hact.directories d hd with hd | ⟨hrequest, hd, -⟩
        · exact .inl hd
        · exact .inr ⟨hact.isProcess.trans hrequest, hd⟩

/-- Every step keeps the invariant: tasks begin and go on, and processes end, with all their locks.
-/
theorem Sound.step {e : StagingEvent} (h : s.Sound) (hstep : s.step active e = some s') :
    s'.Sound := by
  have hfresh : ∀ {tasks : Foundation.Table Nat StagingTask (·.id)} {id : Nat}
      {P : StagingTask → Prop}, tasks.find? id = none → ∀ old ∈ tasks.rows, old.id = id → P old :=
    fun hnone old hold hid => absurd hid (Table.find?_eq_none_iff.mp hnone old hold)
  cases stepped hstep with
  | started hunused hnone =>
      refine h.set (fun _ hlock => absurd hlock List.not_mem_nil) (hfresh hnone)
        (fun hrequest => by cases hrequest) ?_ ?_ (fun _ hd => .inl hd)
        (List.subset_append_left _ _) (List.mem_append_right _ List.mem_cons_self)
        (h.inOrder.mono (List.subset_append_left _ _))
      · intro _ a ha _ _ hsame
        have hknown := h.known a ha
        rw [hsame] at hknown
        exact hunused hknown
      · intro _ _ d hd hsame
        have hknown := h.inOrder.used d hd
        rw [hsame] at hknown
        exact hunused hknown
  | called hpoint hserves hnone =>
      obtain ⟨m, hm, rfl, -⟩ := serves_iff.mp hserves
      rcases hpoint with ⟨-, rfl, -⟩ | ⟨-, rfl⟩
      · exact h.set (fun _ hlock => absurd hlock List.not_mem_nil) (hfresh hnone)
          (fun _ => hserves) (fun hprocess => by cases hprocess) (fun hprocess => by cases hprocess)
          (fun _ hd => .inl hd) (fun _ hi => hi) (h.known m hm) h.inOrder
      · exact h.set (fun _ hlock => absurd hlock List.not_mem_nil) (hfresh hnone)
          (fun _ => hserves) (fun hprocess => by cases hprocess) (fun hprocess => by cases hprocess)
          (fun _ hd => .inl hd) (fun _ hi => hi) (h.known m hm) h.inOrder
  | queued ht hsaved hactive hnone =>
      next t x job =>
        have hserved := h.served t ht (by rw [hsaved]; rfl)
        have hmid : Sound ⟨s.files, s.tasks.set { t with point := .upload (.answering x) }, s.used⟩ := by
          refine h.set (fun _ hlock => absurd hlock List.not_mem_nil) ?_ (fun _ => hserved)
            (fun hprocess => by cases hprocess) (fun hprocess => by cases hprocess)
            (fun _ hd => .inl hd) (fun _ hi => hi) (h.known t ht) h.inOrder
          intro old hold hid hserving
          rw [Table.eq_of_key hold ht hid, hsaved] at hserving
          cases hserving
        have hstill := hmid.served _ (Table.mem_set_self _ _) rfl
        exact hmid.set (fun _ hlock => absurd hlock List.not_mem_nil) (hfresh hnone)
          (fun _ => hstill) (fun hprocess => by cases hprocess) (fun hprocess => by cases hprocess)
          (fun _ hd => .inl hd) (fun _ hi => hi) (h.known t ht) h.inOrder
  | acted ht hact => exact h.goOn ht (acted hact)
  | quitted =>
      refine h.keep ?_ (fun _ hd => hd) h.inOrder
      intro t _ hkept _ m _ hsame _
      rw [decide_eq_true_eq] at hkept ⊢
      rw [hsame]
      exact hkept

/-- The invariant holds in every state of every run. -/
theorem sound_of_trace {steps : List (Step StagingRoot StagingEvent Unit)} (hinit : s.Initial)
    (h : Trace StepTo s steps s') : s'.Sound :=
  h.invariant hinit.sound fun hsound hstep => by
    obtain ⟨active, hstep⟩ := hstep
    exact hsound.step hstep

/-! ## Deleting -/

/-- No other task has a lock on the owner. -/
def Alone (s : StagingRoot) (t : StagingTask) (owner : Uuid) : Prop :=
  ∀ q ∈ s.tasks.rows, q.id ≠ t.id → ∀ lock ∈ stagingLocks.held q, lock.file ≠ .owner owner

/-- No task of the instance is left. -/
def Dead (s : StagingRoot) (instanceId : Nat) : Prop :=
  ∀ q ∈ s.tasks.rows, q.instanceId ≠ instanceId

theorem Sound.alone (h : s.Sound) {t : StagingTask} (ht : t ∈ s.tasks.rows) {owner : Uuid}
    (hlock : ⟨.exclusive, .owner owner⟩ ∈ stagingLocks.held t) : s.Alone t owner :=
  fun _ hq hne => h.apart.alone ht hlock hq hne.symm

/-- Whoever has the marker of an instance with files, and is not that instance itself, has it
from a dead one. -/
theorem Sound.dead (h : s.Sound) {t : StagingTask} (ht : t ∈ s.tasks.rows)
    (hstarting : t.point ≠ .start .serving) {instanceId : Nat}
    (hlock : ⟨.exclusive, .marker instanceId⟩ ∈ stagingLocks.held t) {owner : Uuid}
    (hd : (owner, instanceId) ∈ s.files.directories) : s.Dead instanceId := by
  have hserving : ∀ m ∈ s.tasks.rows, m.point = .start .serving → m.instanceId ≠ instanceId := by
    intro m hm hpoint hsame
    have hne : t.id ≠ m.id := fun hid => hstarting (Table.eq_of_key ht hm hid ▸ hpoint)
    have hmarker : ⟨.exclusive, .marker instanceId⟩ ∈ stagingLocks.held m := by
      rw [← hsame]
      show _ ∈ m.point.held m.instanceId
      rw [hpoint]
      exact List.mem_singleton.mpr rfl
    exact h.apart.alone ht hlock hm hne _ hmarker rfl
  intro q hq hsame
  cases hprocess : q.point.isProcess with
  | false =>
      obtain ⟨m, hm, hinstance, hpoint⟩ := serves_iff.mp (h.served q hq hprocess)
      exact hserving m hm hpoint (hinstance.trans hsame)
  | true =>
      by_cases hpoint : q.point = .start .serving
      · exact hserving q hq hpoint hsame
      · exact h.unwritten q hq hprocess hpoint _ hd hsame.symm

/-- In every run, whatever order the steps come in, a staged original is deleted by the upload or
the job it belongs to; by an erasure of its owner, with no other task at this owner; or by a
start-up, with the instance that wrote it dead and no other task at its owner. -/
theorem original_deleted_by {s₀ : StagingRoot} {steps : List (Step StagingRoot StagingEvent Unit)}
    (hinit : s₀.Initial) (h : Trace StepTo s₀ steps s)
    {st : Step StagingRoot StagingEvent Unit} (hst : st ∈ steps) {x : Original}
    (hx : x ∈ st.before.files.originals) (hgone : x ∉ st.after.files.originals) :
    ∃ t ∈ st.before.tasks.rows, (∃ action, st.call = .act t.id action) ∧
      (t.point.original = some x ∨
        ((∃ names ids, t.point = .erasure (.emptying x.owner x.instanceId names ids)) ∧
          st.before.Alone t x.owner) ∨
        ((∃ sweep names, t.point = .start (.removing sweep x.owner names) ∧
            sweep.instanceId = x.instanceId) ∧
          st.before.Alone t x.owner ∧ st.before.Dead x.instanceId)) := by
  have hsound : st.before.Sound :=
    (h.invariant_at hinit.sound (fun hs ⟨_, hstep⟩ => hs.step hstep) hst).1
  obtain ⟨active, hstep⟩ := h.step_of_mem hst
  generalize hcall : st.call = e at hstep
  generalize hafter : st.after = after at hstep hgone
  cases stepped hstep with
  | started hunused hnone => exact absurd hx hgone
  | called hpoint hserves hnone => exact absurd hx hgone
  | queued ht hsaved hactive hnone => exact absurd hx hgone
  | quitted => exact absurd hx hgone
  | acted ht hact =>
      next t action next files =>
        refine ⟨t, ht, ⟨action, rfl⟩, ?_⟩
        rcases (acted hact).deleted hx hgone with hown | ⟨sweep, names, hp, hsame⟩ | ⟨names, ids, hp⟩
        · exact .inl hown
        · have hheld : stagingLocks.held t =
              [⟨.exclusive, .startup⟩, ⟨.exclusive, .marker x.instanceId⟩,
                ⟨.exclusive, .owner x.owner⟩] := by
            show t.point.held t.instanceId = _
            rw [hp, ← hsame]
            rfl
          refine .inr (.inr ⟨⟨sweep, names, hp, hsame⟩, hsound.alone ht (by simp [hheld]), ?_⟩)
          exact hsound.dead ht (by simp [hp]) (by simp [hheld]) (hsound.inOrder.placed x hx)
        · have hheld : stagingLocks.held t =
              [⟨.exclusive, .owner x.owner⟩, ⟨.exclusive, .startup⟩] := by
            show t.point.held t.instanceId = _
            rw [hp]
            rfl
          exact .inr (.inl ⟨⟨names, ids, hp⟩, hsound.alone ht (by simp [hheld])⟩)

/-- A dead instance has left an original and its marker. -/
def abandonedRoot : StagingRoot where
  files := ⟨[1], [(1, 0)], [0], [⟨1, 0, 5⟩]⟩
  tasks := .empty
  used := [0]

theorem abandonedRoot_initial : abandonedRoot.Initial :=
  ⟨rfl, ⟨by decide, by decide, by decide⟩⟩

/-- A start-up next to it, up to its step number `n`. -/
def startup (n : Nat) : List StagingEvent := .start 10 1 :: List.replicate n (.act 10 .advance)

/-- The root after these events. -/
def after (s : StagingRoot) (events : List StagingEvent) : StagingRoot :=
  (events.foldlM (step (fun _ => true)) s).getD s

theorem exists_trace_after (s : StagingRoot) (events : List StagingEvent)
    (h : (events.foldlM (step (fun _ => true)) s).isSome = true) :
    ∃ steps, Trace StepTo s steps (s.after events) := by
  obtain ⟨s', hs⟩ := Option.isSome_iff_exists.mp h
  obtain ⟨steps, htrace, -⟩ := exists_trace_of_foldlM hs
  rw [after, hs]
  exact ⟨steps, htrace.mono fun hstep => ⟨_, hstep⟩⟩

theorem original_deleted_by_startup :
    ∃ t ∈ (abandonedRoot.after (startup 6)).tasks.rows,
      (∃ action, (StagingEvent.act 10 .advance) = .act t.id action) ∧
      (t.point.original = some ⟨1, 0, 5⟩ ∨
        ((∃ names ids, t.point = .erasure (.emptying 1 0 names ids)) ∧
          (abandonedRoot.after (startup 6)).Alone t 1) ∨
        ((∃ sweep names, t.point = .start (.removing sweep 1 names) ∧ sweep.instanceId = 0) ∧
          (abandonedRoot.after (startup 6)).Alone t 1 ∧ (abandonedRoot.after (startup 6)).Dead 0)) := by
  obtain ⟨steps, htrace⟩ := exists_trace_after abandonedRoot (startup 6) (by decide)
  have hstep : StepTo (abandonedRoot.after (startup 6)) (.act 10 .advance) () (abandonedRoot.after (startup 7)) :=
    ⟨fun _ => true, rfl⟩
  exact original_deleted_by abandonedRoot_initial (.snoc htrace hstep)
    (List.mem_append_right _ List.mem_cons_self) (x := ⟨1, 0, 5⟩) (by decide) (by decide)

/-! ## Waiting -/

/-- How far down a task waits. -/
def waitRank (t : StagingTask) : Nat :=
  (stagingLocks.wanted t).elim 0 (fun lock => lock.file.height)

/-- A task waits below every lock it holds. -/
theorem waitRank_lt_of_held (t : StagingTask) :
    ∀ lock ∈ stagingLocks.held t, waitRank t < lock.file.height := by
  obtain ⟨id, instanceId, point⟩ := t
  rcases point with p | p | p | p <;> cases p <;>
    simp [stagingLocks, waitRank, Point.held, Point.wanted, StartPoint.held, StartPoint.wanted,
      UploadPoint.held, UploadPoint.wanted, JobPoint.held, JobPoint.wanted, ErasurePoint.held,
      ErasurePoint.wanted, LockFile.height]

/-- So whoever waits, waits for a task that waits further down. -/
theorem waitRank_lt_of_waits {a b : StagingTask} (h : stagingLocks.Waits s.tasks a b) :
    waitRank b < waitRank a := by
  obtain ⟨-, -, -, lock, hwanted, hblocks⟩ := h
  obtain ⟨own, hown, hfile, -⟩ := Locking.blocks_iff.mp hblocks
  have hlow := waitRank_lt_of_held b own hown
  rw [hfile] at hlow
  rw [show waitRank a = lock.file.height by rw [waitRank, hwanted]; rfl]
  exact hlow

/-- Nobody waits for a process that serves. -/
theorem Sound.not_waits_serving (h : s.Sound) {a b : StagingTask}
    (hwaits : stagingLocks.Waits s.tasks a b) : b.point ≠ .start .serving := by
  intro hserving
  obtain ⟨ha, hb, hne, lock, hwanted, hblocks⟩ := hwaits
  obtain ⟨own, hown, hfile, -⟩ := Locking.blocks_iff.mp hblocks
  have hmarker : own = ⟨.exclusive, .marker b.instanceId⟩ := by
    have hheld : own ∈ b.point.held b.instanceId := hown
    rw [hserving] at hheld
    exact List.mem_singleton.mp hheld
  rw [hmarker] at hfile
  -- only a start waits for a marker, and for its own
  have hstart : a.point = .start .announcing ∧ a.instanceId = b.instanceId := by
    obtain ⟨id, instanceId, point⟩ := a
    rcases point with p | p | p | p <;> cases p <;>
      simp [stagingLocks, Point.wanted, StartPoint.wanted, UploadPoint.wanted, JobPoint.wanted,
        ErasurePoint.wanted] at hwanted <;> subst hwanted <;> simp_all
  have hsame := h.single a ha b hb (by rw [hstart.1]; rfl) (by rw [hserving]; rfl) hstart.2
  exact hne (congrArg StagingTask.id hsame)

/-- A free lock is taken with the next step. -/
theorem takes_wanted {t : StagingTask} {lock : FileLock LockFile}
    (hwanted : stagingLocks.wanted t = some lock) (hfree : s.free t.id lock = true) :
    ∃ p files, s.act active t .advance = some (some p, files) ∧ lock ∈ p.held t.instanceId := by
  obtain ⟨id, instanceId, point⟩ := t
  rcases point with p | p | p | p <;> cases p <;>
    simp [stagingLocks, Point.wanted, StartPoint.wanted, UploadPoint.wanted, JobPoint.wanted,
      ErasurePoint.wanted] at hwanted <;> subst hwanted <;>
    simp [act, StartPoint.advance, UploadPoint.advance, JobPoint.advance, ErasurePoint.advance,
      hfree, Point.held, StartPoint.held, UploadPoint.held, JobPoint.held, ErasurePoint.held]

/-- In no state of any run do tasks wait for one another in a circle.  Behind every task that
waits there is one that does not: it is at work, or its lock is free for its next step; and it is
no process that merely serves, which would have its lock for as long as it lives. -/
theorem never_deadlocked {s₀ : StagingRoot} {steps : List (Step StagingRoot StagingEvent Unit)}
    (hinit : s₀.Initial) (h : Trace StepTo s₀ steps s) {t : StagingTask} (ht : t ∈ s.tasks.rows)
    (hstarting : t.point ≠ .start .serving) :
    ¬Relation.TransGen (stagingLocks.Waits s.tasks) t t ∧
    ∃ b ∈ s.tasks.rows, Relation.ReflTransGen (stagingLocks.Waits s.tasks) t b ∧
      b.point ≠ .start .serving ∧
      ∀ lock, stagingLocks.wanted b = some lock → ∀ active,
        ∃ p files, s.act active b .advance = some (some p, files) ∧
          lock ∈ p.held b.instanceId := by
  have hsound := sound_of_trace hinit h
  have hfalls : ∀ a b, stagingLocks.Waits s.tasks a b → waitRank b < waitRank a :=
    fun _ _ => waitRank_lt_of_waits
  refine ⟨Locking.not_circular hfalls t, ?_⟩
  obtain ⟨b, hbehind, hlast⟩ := Locking.exists_unblocked hfalls t
  have hb : b ∈ s.tasks.rows ∧ b.point ≠ .start .serving := by
    rcases Relation.ReflTransGen.cases_tail hbehind with heq | ⟨a, -, hwaits⟩
    · rw [heq]
      exact ⟨ht, hstarting⟩
    · exact ⟨hwaits.2.1, hsound.not_waits_serving hwaits⟩
  refine ⟨b, hb.1, hbehind, hb.2, fun lock hwanted active => takes_wanted hwanted ?_⟩
  refine Locking.free_iff.mpr fun c hc hne => ?_
  cases hblocks : stagingLocks.blocks lock c with
  | false => rfl
  | true => exact absurd ⟨hb.1, hc, fun hid => hne hid.symm, lock, hwanted, hblocks⟩ (hlast c)

theorem never_deadlocked_startups :
    let s := abandonedRoot.after (startup 1 ++ [.start 11 2])
    ¬Relation.TransGen (stagingLocks.Waits s.tasks) ⟨11, 2, .start .waiting⟩
      ⟨11, 2, .start .waiting⟩ ∧
    ∃ b ∈ s.tasks.rows,
      Relation.ReflTransGen (stagingLocks.Waits s.tasks) ⟨11, 2, .start .waiting⟩ b ∧
      b.point ≠ .start .serving ∧
      ∀ lock, stagingLocks.wanted b = some lock → ∀ active,
        ∃ p files, s.act active b .advance = some (some p, files) ∧
          lock ∈ p.held b.instanceId := by
  obtain ⟨steps, htrace⟩ := exists_trace_after abandonedRoot (startup 1 ++ [.start 11 2])
    (by decide)
  exact never_deadlocked abandonedRoot_initial htrace (by decide) (by decide)

end Invariant

end StagingRoot

end PortRag.Ingest
