import PortRag.Ingest.StagingSafety

set_option autoImplicit false

/-!
# What a start-up recovers

A clean-up goes through the owners and instances it has listed.  An original of a dead instance
is ahead of it, or was passed over because another task had a lock on its owner; when the clean-up
is through, what is left of the originals it found was passed over.
-/

namespace PortRag.Ingest

open PortRag.Foundation

/-- The original is ahead of the start-up, unless the start-up has passed it over. -/
def StartPoint.Ahead (x : Original) (passed : Prop) : StartPoint → Prop
  | .waiting => True
  | .surveying => True
  | .listing owners left ids => x.owner ∈ owners ∧ (x.instanceId ∈ ids ∨ x.owner ∈ left)
  | .sweeping owners ids => x.owner ∈ owners ∧ (x.instanceId ∈ ids ∨ passed)
  | .cleaning sweep => x.owner ∈ sweep.owners ∧ (x.instanceId ∈ sweep.ids ∨
      (sweep.instanceId = x.instanceId ∧ x.owner ∈ sweep.left) ∨ passed)
  | .removing sweep owner names => x.owner ∈ sweep.owners ∧ (x.instanceId ∈ sweep.ids ∨
      (sweep.instanceId = x.instanceId ∧ x.owner ∈ sweep.left) ∨
      (sweep.instanceId = x.instanceId ∧ owner = x.owner ∧ x.name ∈ names) ∨ passed)
  | .announcing => passed
  | .announced => passed
  | .serving => passed

/-- The owner of the original is next, for the instance that wrote it. -/
def StartPoint.AtTurn (x : Original) (p : StartPoint) : Prop :=
  ∃ sweep left, p = .cleaning sweep ∧ sweep.instanceId = x.instanceId ∧
    sweep.left = x.owner :: left

section Clean

variable {x : Original} {passed : Prop} {free : FileLock LockFile → Bool} {instanceId : Nat}
  {files files' : StagingFiles} {used : List Nat} {p q : StartPoint}

theorem StartPoint.Ahead.mono {passed' : Prop} (h : p.Ahead x passed) (hp : passed → passed') :
    p.Ahead x passed' := by
  cases p with
  | waiting => trivial
  | surveying => trivial
  | listing owners left ids => exact h
  | sweeping owners ids => exact ⟨h.1, h.2.imp_right hp⟩
  | cleaning sweep => exact ⟨h.1, h.2.imp_right (Or.imp_right hp)⟩
  | removing sweep owner names => exact ⟨h.1, h.2.imp_right (Or.imp_right (Or.imp_right hp))⟩
  | announcing => exact hp h
  | announced => exact hp h
  | serving => exact hp h

/-- A step of the clean-up leaves the original ahead, or passes it over because the lock of its
owner is not free. -/
theorem StartPoint.Ahead.advance (hfiles : files.InOrder used)
    (h : p.advance free instanceId files = some (some q, files')) (hp : p.Ahead x passed)
    (hx : x ∈ files.originals) (hkept : x ∈ files'.originals)
    (hmarker : ∀ owners ids, p = .sweeping owners ids →
      free ⟨.exclusive, .marker x.instanceId⟩ = true) :
    q.Ahead x (passed ∨ (p.AtTurn x ∧ free ⟨.exclusive, .owner x.owner⟩ = false)) := by
  have hplaced := hfiles.placed x hx
  cases p with
  | waiting =>
      obtain ⟨-, heq⟩ := Option.ite_none_right_eq_some.mp h
      cases heq
      trivial
  | surveying =>
      cases h
      exact ⟨hfiles.owned _ hplaced, .inr (hfiles.owned _ hplaced)⟩
  | listing owners left ids =>
      obtain ⟨howner, hid⟩ := hp
      cases left with
      | nil =>
          cases h
          refine ⟨howner, .inl ?_⟩
          rcases hid with hid | hid
          · exact (List.mem_insertionSort _).mpr (List.mem_dedup.mpr hid)
          · exact absurd hid List.not_mem_nil
      | cons owner left =>
          cases h
          refine ⟨howner, ?_⟩
          rcases hid with hid | hid
          · exact .inl (List.mem_append_left _ hid)
          · rcases List.mem_cons.mp hid with rfl | hid
            · exact .inl (List.mem_append_right _ (StagingFiles.mem_instancesOf.mpr hplaced))
            · exact .inr hid
  | sweeping owners ids =>
      obtain ⟨howner, hid⟩ := hp
      have hfree := hmarker owners ids rfl
      cases ids with
      | nil =>
          cases h
          exact .inl (hid.resolve_left List.not_mem_nil)
      | cons id ids =>
          rw [StartPoint.advance] at h
          split at h
          · cases h
            refine ⟨howner, ?_⟩
            rcases hid with hid | hid
            · rcases List.mem_cons.mp hid with rfl | hid
              · exact .inr (.inl ⟨rfl, howner⟩)
              · exact .inl hid
            · exact .inr (.inr (.inl hid))
          · next hbusy =>
              cases h
              refine ⟨howner, ?_⟩
              rcases hid with hid | hid
              · rcases List.mem_cons.mp hid with rfl | hid
                · exact absurd hfree hbusy
                · exact .inl hid
              · exact .inr (.inl hid)
  | cleaning sweep =>
      obtain ⟨owners, ids, id, left, complete⟩ := sweep
      obtain ⟨howner, hid⟩ := hp
      cases left with
      | nil =>
          cases h
          refine ⟨howner, ?_⟩
          rcases hid with hid | ⟨-, hid⟩ | hid
          · exact .inl hid
          · exact absurd hid List.not_mem_nil
          · exact .inr (.inl hid)
      | cons owner left =>
          rw [StartPoint.advance] at h
          split at h
          · next hfree =>
              split at h
              · cases h
                refine ⟨howner, ?_⟩
                rcases hid with hid | ⟨hinstance, hid⟩ | hid
                · exact .inl hid
                · rcases List.mem_cons.mp hid with rfl | hid
                  · have hinstance' : id = x.instanceId := hinstance
                    subst hinstance'
                    exact .inr (.inr (.inl ⟨rfl, rfl, StagingFiles.mem_namesIn.mpr hx⟩))
                  · exact .inr (.inl ⟨hinstance, hid⟩)
                · exact .inr (.inr (.inr (.inl hid)))
              · next hempty =>
                  cases h
                  refine ⟨howner, ?_⟩
                  rcases hid with hid | ⟨hinstance, hid⟩ | hid
                  · exact .inl hid
                  · rcases List.mem_cons.mp hid with rfl | hid
                    · have hinstance' : id = x.instanceId := hinstance
                      exact absurd (hinstance'.symm ▸ hplaced) hempty
                    · exact .inr (.inl ⟨hinstance, hid⟩)
                  · exact .inr (.inr (.inl hid))
          · next hbusy =>
              cases h
              refine ⟨howner, ?_⟩
              rcases hid with hid | ⟨hinstance, hid⟩ | hid
              · exact .inl hid
              · rcases List.mem_cons.mp hid with rfl | hid
                · exact .inr (.inr (.inr ⟨⟨_, left, rfl, hinstance, rfl⟩, by simpa using hbusy⟩))
                · exact .inr (.inl ⟨hinstance, hid⟩)
              · exact .inr (.inr (.inl hid))
  | removing sweep owner names =>
      obtain ⟨howner, hid⟩ := hp
      cases names with
      | nil =>
          rw [StartPoint.advance] at h
          split at h
          · cases h
            refine ⟨howner, ?_⟩
            rcases hid with hid | hid | ⟨-, -, hid⟩ | hid
            · exact .inl hid
            · exact .inr (.inl hid)
            · exact absurd hid List.not_mem_nil
            · exact .inr (.inr (.inl hid))
          · cases h
      | cons name names =>
          cases h
          refine ⟨howner, ?_⟩
          rcases hid with hid | hid | ⟨hinstance, rfl, hid⟩ | hid
          · exact .inl hid
          · exact .inr (.inl hid)
          · rcases List.mem_cons.mp hid with rfl | hid
            · have hother := (StagingFiles.mem_unlink.mp hkept).2
              rw [hinstance] at hother
              exact absurd rfl hother
            · exact .inr (.inr (.inl ⟨hinstance, rfl, hid⟩))
          · exact .inr (.inr (.inr (.inl hid)))
  | announcing =>
      obtain ⟨-, heq⟩ := Option.ite_none_right_eq_some.mp h
      cases heq
      exact .inl hp
  | announced =>
      cases h
      exact .inl hp
  | serving => cases h

end Clean

namespace StagingRoot

section Runs

variable {active : Uuid → Bool} {s s' : StagingRoot}

/-- A dead instance stays dead: its number is used, and a start-up takes a new one. -/
theorem Dead.step {e : StagingEvent} {instanceId : Nat} (h : s.Dead instanceId)
    (hused : instanceId ∈ s.used) (hstep : s.step active e = some s') :
    s'.Dead instanceId ∧ instanceId ∈ s'.used := by
  cases stepped hstep with
  | started hunused hnone =>
      refine ⟨fun q hq hsame => ?_, List.mem_append_left _ hused⟩
      rcases Table.mem_set_iff.mp hq with rfl | ⟨hq, -⟩
      · subst hsame
        exact hunused hused
      · exact h q hq hsame
  | called hpoint hserves hnone =>
      refine ⟨fun q hq hsame => ?_, hused⟩
      rcases Table.mem_set_iff.mp hq with rfl | ⟨hq, -⟩
      · obtain ⟨m, hm, hinstance, -⟩ := serves_iff.mp hserves
        exact h m hm (hinstance.trans hsame)
      · exact h q hq hsame
  | queued ht hsaved hactive hnone =>
      refine ⟨fun q hq hsame => ?_, hused⟩
      rcases Table.mem_set_iff.mp hq with rfl | ⟨hq, -⟩
      · exact h _ ht hsame
      · rcases Table.mem_set_iff.mp hq with rfl | ⟨hq, -⟩
        · exact h _ ht hsame
        · exact h q hq hsame
  | acted ht hact =>
      refine ⟨fun q hq hsame => ?_, hused⟩
      rcases mem_goOn.mp hq with ⟨p, -, rfl⟩ | ⟨hq, -⟩
      · exact h _ ht hsame
      · exact h q hq hsame
  | quitted => exact ⟨fun q hq hsame => h q (mem_quit.mp hq).1 hsame, hused⟩

/-- Nobody writes as a dead instance. -/
theorem Dead.original_before {e : StagingEvent} {x : Original} (h : s.Dead x.instanceId)
    (hstep : s.step active e = some s') (hx : x ∈ s'.files.originals) :
    x ∈ s.files.originals := by
  cases stepped hstep with
  | acted ht hact =>
      rcases (acted hact).brought hx with hx | ⟨-, hinstance, -⟩
      · exact hx
      · exact absurd hinstance.symm (h _ ht)
  | started hunused hnone => exact hx
  | called hpoint hserves hnone => exact hx
  | queued ht hsaved hactive hnone => exact hx
  | quitted => exact hx

/-- Whoever has a marker is that instance, or has `.startup.lock` too. -/
theorem startup_of_marker {t : StagingTask} {lock : FileLock LockFile} {instanceId : Nat}
    (hlock : lock ∈ stagingLocks.held t) (hfile : lock.file = .marker instanceId) :
    t.instanceId = instanceId ∨ ⟨.exclusive, .startup⟩ ∈ stagingLocks.held t := by
  obtain ⟨id, own, point⟩ := t
  rcases point with p | p | p | p <;> cases p <;>
    simp [stagingLocks, Point.held, StartPoint.held, UploadPoint.held, JobPoint.held,
      ErasurePoint.held] at hlock ⊢ <;> aesop

/-- The marker of a dead instance is free for a start-up that is looking for it. -/
theorem Sound.marker_free (h : s.Sound) {t : StagingTask} (ht : t ∈ s.tasks.rows)
    (hstartup : ⟨.exclusive, .startup⟩ ∈ stagingLocks.held t) {instanceId : Nat}
    (hdead : s.Dead instanceId) : s.free t.id ⟨.exclusive, .marker instanceId⟩ = true := by
  refine Locking.free_iff.mpr fun q hq hne => ?_
  cases hblocks : stagingLocks.blocks ⟨.exclusive, .marker instanceId⟩ q with
  | false => rfl
  | true =>
      obtain ⟨own, hown, hfile, -⟩ := Locking.blocks_iff.mp hblocks
      rcases startup_of_marker hown hfile with hsame | hother
      · exact absurd hsame (hdead q hq)
      · exact absurd rfl (h.apart.alone ht hstartup hq hne.symm _ hother)

/-- A start-up passes over an original: the lock of its owner, whose turn it is, is another
task's. -/
def PassesOver (id : Nat) (x : Original) (st : Step StagingRoot StagingEvent Unit) : Prop :=
  st.call = .act id .advance ∧
    ∃ t ∈ st.before.tasks.rows, t.id = id ∧ (∃ p, t.point = .start p ∧ p.AtTurn x) ∧
      ¬st.before.Alone t x.owner

/-- Where the clean-up of a start-up stands with an original of a dead instance. -/
structure Pursued (s : StagingRoot) (t : StagingTask) (x : Original) (passed : Prop) : Prop where
  sound : s.Sound
  dead : s.Dead x.instanceId
  written : x.instanceId ∈ s.used
  started : t.instanceId ∈ s.used
  ahead : x ∈ s.files.originals → ∀ u ∈ s.tasks.rows, u.instanceId = t.instanceId →
    ∀ p, u.point = .start p → u.id = t.id ∧ p.Ahead x passed

theorem not_alone_of_busy {t : StagingTask} {owner : Uuid}
    (h : s.free t.id ⟨.exclusive, .owner owner⟩ = false) : ¬s.Alone t owner := by
  intro halone
  have hfree : s.free t.id ⟨.exclusive, .owner owner⟩ = true := by
    refine Locking.free_iff.mpr fun q hq hne => ?_
    cases hblocks : stagingLocks.blocks ⟨.exclusive, .owner owner⟩ q with
    | false => rfl
    | true =>
        obtain ⟨own, hown, hfile, -⟩ := Locking.blocks_iff.mp hblocks
        exact absurd hfile (halone q hq hne own hown)
  exact absurd (hfree.symm.trans h) (by decide)

theorem used_subset {e : StagingEvent} (hstep : s.step active e = some s') : s.used ⊆ s'.used := by
  cases stepped hstep with
  | started hunused hnone => exact List.subset_append_left _ _
  | called hpoint hserves hnone => exact fun _ hi => hi
  | queued ht hsaved hactive hnone => exact fun _ hi => hi
  | acted ht hact => exact fun _ hi => hi
  | quitted => exact fun _ hi => hi

/-- The clean-up of a start-up goes on: an original that is still there is ahead of it, or it has
just passed it over because its owner was locked. -/
theorem Sound.ahead_act (h : s.Sound) {w : StagingTask} {action : Action} {q : StartPoint}
    {files : StagingFiles} (hw : w ∈ s.tasks.rows)
    (hact : Acted active s w action (some (.start q)) files) {x : Original} {passed : Prop}
    (hx : x ∈ s.files.originals) (hkept : x ∈ files.originals) (hdead : s.Dead x.instanceId)
    (hahead : ∀ p, w.point = .start p → p.Ahead x passed) :
    q.Ahead x (passed ∨ PassesOver w.id x ⟨s, .act w.id action, (), s⟩) := by
  generalize hnext : some (Point.start q) = next at hact
  cases hact with
  | start hp hadvance =>
      next p r =>
        obtain ⟨q', rfl, hq⟩ := Option.map_eq_some_iff.mp hnext.symm
        cases hq
        have hmarker : ∀ owners ids, p = .sweeping owners ids →
            s.free w.id ⟨.exclusive, .marker x.instanceId⟩ = true := by
          rintro owners ids rfl
          refine h.marker_free hw ?_ hdead
          show _ ∈ w.point.held w.instanceId
          rw [hp]
          exact List.mem_cons_self
        refine (StartPoint.Ahead.advance h.inOrder hadvance (hahead p hp) hx hkept hmarker).mono ?_
        rintro (hpassed | ⟨hturn, hbusy⟩)
        · exact .inl hpassed
        · exact .inr ⟨rfl, w, hw, rfl, ⟨p, hp, hturn⟩, not_alone_of_busy hbusy⟩
  | upload hp hadvance =>
      obtain ⟨q', -, hq⟩ := Option.map_eq_some_iff.mp hnext.symm
      cases hq
  | job hp hadvance =>
      obtain ⟨q', -, hq⟩ := Option.map_eq_some_iff.mp hnext.symm
      cases hq
  | erasure hp hadvance =>
      obtain ⟨q', -, hq⟩ := Option.map_eq_some_iff.mp hnext.symm
      cases hq
  | created hp hnew => cases hnext
  | retried hp => cases hnext
  | discarded hy => cases hnext
  | left hp => cases hnext

/-- A step of anyone keeps an original pursued: it is deleted, or the clean-up still has it ahead,
or has passed it over. -/
theorem Pursued.step {t : StagingTask} {x : Original} {passed : Prop} {e : StagingEvent}
    {answer : Unit} (h : s.Pursued t x passed) (hstep : StepTo s e answer s') :
    s'.Pursued t x (passed ∨ PassesOver t.id x ⟨s, e, answer, s'⟩) := by
  obtain ⟨active, hstep⟩ := hstep
  have hdead := h.dead.step h.written hstep
  refine ⟨h.sound.step hstep, hdead.1, hdead.2, used_subset hstep h.started, ?_⟩
  intro hkept u hu hinstance p hp
  have hx := h.dead.original_before hstep hkept
  have hold : ∀ w ∈ s.tasks.rows, w.instanceId = t.instanceId → ∀ p, w.point = .start p →
      w.id = t.id ∧ p.Ahead x (passed ∨ PassesOver t.id x ⟨s, e, answer, s'⟩) := by
    intro w hw hsame p hp
    obtain ⟨hid, hahead⟩ := h.ahead hx w hw hsame p hp
    exact ⟨hid, hahead.mono Or.inl⟩
  cases stepped hstep with
  | started hunused hnone =>
      rcases Table.mem_set_iff.mp hu with rfl | ⟨hu, -⟩
      · have hstarted := h.started
        rw [← hinstance] at hstarted
        exact absurd hstarted hunused
      · exact hold u hu hinstance p hp
  | called hpoint hserves hnone =>
      rcases Table.mem_set_iff.mp hu with rfl | ⟨hu, -⟩
      · rcases hpoint with ⟨-, rfl, -⟩ | ⟨-, rfl⟩
        · cases hp
        · cases hp
      · exact hold u hu hinstance p hp
  | queued ht hsaved hactive hnone =>
      rcases Table.mem_set_iff.mp hu with rfl | ⟨hu, -⟩
      · cases hp
      · rcases Table.mem_set_iff.mp hu with rfl | ⟨hu, -⟩
        · cases hp
        · exact hold u hu hinstance p hp
  | quitted => exact hold u (mem_quit.mp hu).1 hinstance p hp
  | acted hw hact =>
      next w action next files =>
        rcases mem_goOn.mp hu with ⟨q, rfl, rfl⟩ | ⟨hu, -⟩
        · have hq : q = .start p := hp
          subst hq
          -- the process of the clean-up goes on
          have hprocess : w.point.isProcess = true := (acted hact).isProcess.symm
          obtain ⟨r, hr⟩ : ∃ r, w.point = .start r := by
            cases hpoint : w.point with
            | start r => exact ⟨r, rfl⟩
            | upload r => simp [hpoint, Point.isProcess] at hprocess
            | job r => simp [hpoint, Point.isProcess] at hprocess
            | erasure r => simp [hpoint, Point.isProcess] at hprocess
          have hid := (h.ahead hx w hw hinstance r hr).1
          refine ⟨hid, ?_⟩
          rw [← hid]
          exact h.sound.ahead_act hw (acted hact) hx hkept h.dead
            (fun r hr => (h.ahead hx w hw hinstance r hr).2)
        · exact hold u hu hinstance p hp

/-- When the clean-up of a start-up is through, every original that it found of an instance dead
by then is deleted, unless the start-up passed it over: at its turn another task had a lock on
its owner.  A marker of that instance is not needed. -/
theorem abandoned_recovered {s₀ m : StagingRoot}
    {before steps : List (Step StagingRoot StagingEvent Unit)} (hinit : s₀.Initial)
    (hbefore : Trace StepTo s₀ before m) (hrun : Trace StepTo m steps s) {t : StagingTask}
    (ht : t ∈ m.tasks.rows) (hfrom : t.point = .start .waiting ∨ t.point = .start .surveying)
    (hto : { t with point := .start .announcing } ∈ s.tasks.rows) {x : Original}
    (hx : x ∈ m.files.originals) (hdead : m.Dead x.instanceId) :
    x ∉ s.files.originals ∨ ∃ st ∈ steps, PassesOver t.id x st := by
  have hsound := sound_of_trace hinit hbefore
  have hpursued : s.Pursued t x (∃ st ∈ steps, PassesOver t.id x st) := by
    clear hto
    induction hrun with
    | nil =>
        refine ⟨hsound, hdead, hsound.inOrder.used _ (hsound.inOrder.placed x hx),
          hsound.known t ht, ?_⟩
        intro _ u hu hinstance p hp
        have hut : u = t := by
          refine hsound.single u hu t ht ?_ ?_ hinstance
          · rw [hp]
            rfl
          · rcases hfrom with hfrom | hfrom
            · rw [hfrom]
              rfl
            · rw [hfrom]
              rfl
        subst hut
        refine ⟨rfl, ?_⟩
        rcases hfrom with hfrom | hfrom
        · cases hp.symm.trans hfrom
          trivial
        · cases hp.symm.trans hfrom
          trivial
    | snoc _ hstep ih =>
        have hnext := ih.step hstep
        refine { hnext with ahead := fun hkept u hu hinstance p hp => ?_ }
        obtain ⟨hid, hahead⟩ := hnext.ahead hkept u hu hinstance p hp
        refine ⟨hid, hahead.mono ?_⟩
        rintro (⟨st, hst, hpasses⟩ | hpasses)
        · exact ⟨st, List.mem_append_left _ hst, hpasses⟩
        · exact ⟨_, List.mem_append_right _ List.mem_cons_self, hpasses⟩
  by_cases hleft : x ∈ s.files.originals
  · exact .inr (hpursued.ahead hleft _ hto rfl _ rfl).2
  · exact .inl hleft

theorem abandoned_recovered_startup :
    (⟨1, 0, 5⟩ : Original) ∉ (abandonedRoot.after (startup 10)).files.originals ∨
      ∃ steps, Trace StepTo (abandonedRoot.after (startup 1)) steps
          (abandonedRoot.after (startup 10)) ∧
        ∃ st ∈ steps, PassesOver 10 ⟨1, 0, 5⟩ st := by
  obtain ⟨before, hbefore⟩ := exists_trace_after abandonedRoot (startup 1) (by decide)
  obtain ⟨steps, hsteps⟩ := exists_trace_after (abandonedRoot.after (startup 1))
    (List.replicate 9 (.act 10 .advance)) (by decide)
  have hrun : Trace StepTo (abandonedRoot.after (startup 1)) steps
      (abandonedRoot.after (startup 10)) := hsteps
  refine (abandoned_recovered abandonedRoot_initial hbefore hrun (t := ⟨10, 1, .start .surveying⟩)
    (by decide) (.inr rfl) (by decide) (by decide) (by unfold Dead; decide)).imp_right ?_
  exact fun hpassed => ⟨steps, hrun, hpassed⟩

end Runs

end StagingRoot

end PortRag.Ingest
