import PortRag.Ingest.StagedErasure
import PortRag.Service.Frames

set_option autoImplicit false

/-!
# Erasing an account

`AccountErasureService.erase` of `rag/http/account_erasure.py`, with everything that runs beside
it: the transactions of the other calls, for any owner, and the tasks at the staging root, of any
number of processes.  The fence commits first; the two workers and the staging root are drained
and emptied after it; the rows go last, in one transaction.

What the workers do inside their `erase_user` is not followed here: an erasure waits for them, and
whatever jobs they still run are among the steps of the others.
-/

namespace PortRag.Db.Database

variable {db : Database} {u owner : Uuid}

theorem ownsDocument_deleteOwner (id : Uuid) :
    (db.deleteOwner u).ownsDocument owner id =
      (decide (owner ≠ u) && db.ownsDocument owner id) := by
  have hfind : (db.deleteOwner u).document? id = (db.document? id).filter (fun d => d.userId ≠ u) :=
    document?_keepDocuments db _ id
  rw [ownsDocument, ownsDocument, hfind]
  cases db.document? id with
  | none => rw [Option.filter_none, Option.any_none, Bool.and_false]
  | some d =>
      rw [Option.filter_some, Option.any_some]
      by_cases howner : d.userId = owner
      · subst howner
        by_cases hu : d.userId = u <;> simp [hu]
      · split <;> simp [howner]

theorem ownsRevision_deleteOwner (id : Uuid) :
    (db.deleteOwner u).ownsRevision owner id =
      (decide (owner ≠ u) && db.ownsRevision owner id) := by
  have hfind : (db.deleteOwner u).revisions.find? id =
      (db.revisions.find? id).filter (fun r => r.userId ≠ u) := Foundation.Table.find?_keep _ _ _
  rw [ownsRevision, ownsRevision, hfind]
  cases db.revisions.find? id with
  | none => rw [Option.filter_none, Option.any_none, Bool.and_false]
  | some r =>
      rw [Option.filter_some, Option.any_some]
      by_cases howner : r.userId = owner
      · subst howner
        by_cases hu : r.userId = u <;> simp [hu]
      · split <;> simp [howner]

/-- The deletes of an erasure leave the rows of every other owner alone, in every table: cascades
stay within the owner of the row that is deleted. -/
theorem slice_deleteOwner (hne : owner ≠ u) : (db.deleteOwner u).slice owner = db.slice owner := by
  have hkeep : ∀ d : Document, d.userId = owner → decide (d.userId ≠ u) = true := by
    rintro d rfl
    exact decide_eq_true hne
  have howns : ∀ id, db.ownsRevision owner id = true → db.ownsRevision u id = false := by
    intro id hid
    obtain ⟨r, hr, howner⟩ := ownsRevision_iff.mp hid
    rw [ownsRevision, hr, Option.any_some, howner]
    exact decide_eq_false hne
  have hmembers : ∀ {ρ : Type} (rows : List ρ) (revision : ρ → Uuid),
      (rows.filter (fun c => !db.ownsRevision u (revision c))).filter
          (fun c => db.ownsRevision owner (revision c)) =
        rows.filter (fun c => db.ownsRevision owner (revision c)) := by
    intro ρ rows revision
    rw [List.filter_filter]
    apply List.filter_congr
    intro c _
    cases hc : db.ownsRevision owner (revision c) with
    | true => rw [howns _ hc, Bool.not_false, Bool.and_self]
    | false => rw [Bool.false_and]
  have hrevisions : (db.deleteOwner u).slice owner =
      (db.keepDocuments (fun d => d.userId ≠ u)).slice owner := by
    refine slice_of_revisions rfl rfl rfl rfl ?_ ?_ (hmembers _ _) (hmembers _ _)
    · intro id
      rw [ownsRevision_deleteOwner, decide_eq_true hne, Bool.true_and]
      rfl
    · show (db.revisions.rows.filter _).filter _ = _
      rw [List.filter_filter]
      apply List.filter_congr
      intro r _
      by_cases howner : r.userId = owner
      · simp [howner, hne]
      · simp [howner]
  rw [hrevisions]
  exact slice_keepDocuments hkeep

/-- No row of an owner. -/
structure NoRows (db : Database) (owner : Uuid) : Prop where
  documents : (db.slice owner).documents.rows = []
  chunks : (db.slice owner).chunks.rows = []
  webpages : (db.slice owner).webpages.rows = []
  revisions : (db.slice owner).revisions.rows = []
  revisionChunks : (db.slice owner).revisionChunks.rows = []
  revisionWebpages : (db.slice owner).revisionWebpages.rows = []

/-- After the deletes of an erasure no table has a row of the owner. -/
theorem noRows_deleteOwner : (db.deleteOwner u).NoRows u where
  documents := by
    refine List.filter_eq_nil_iff.mpr fun d hd => ?_
    have hkept := (List.mem_filter.mp hd).2
    simp only [decide_eq_true_eq] at hkept ⊢
    exact hkept
  chunks := by
    refine List.filter_eq_nil_iff.mpr fun c _ => ?_
    show ¬(db.deleteOwner u).ownsDocument u c.documentId = true
    rw [ownsDocument_deleteOwner]
    simp
  webpages := by
    refine List.filter_eq_nil_iff.mpr fun p _ => ?_
    show ¬(db.deleteOwner u).ownsDocument u p.documentId = true
    rw [ownsDocument_deleteOwner]
    simp
  revisions := by
    refine List.filter_eq_nil_iff.mpr fun r hr => ?_
    have hkept := (List.mem_filter.mp hr).2
    simp only [decide_eq_true_eq] at hkept ⊢
    exact hkept
  revisionChunks := by
    refine List.filter_eq_nil_iff.mpr fun c _ => ?_
    show ¬(db.deleteOwner u).ownsRevision u c.revisionId = true
    rw [ownsRevision_deleteOwner]
    simp
  revisionWebpages := by
    refine List.filter_eq_nil_iff.mpr fun m _ => ?_
    show ¬(db.deleteOwner u).ownsRevision u m.revisionId = true
    rw [ownsRevision_deleteOwner]
    simp

/-- An owner's rows are in the owner's slice. -/
theorem NoRows.of_slice {db' : Database} (h : db.NoRows u) (hslice : db'.slice u = db.slice u) :
    db'.NoRows u :=
  ⟨by rw [hslice]; exact h.documents, by rw [hslice]; exact h.chunks,
    by rw [hslice]; exact h.webpages, by rw [hslice]; exact h.revisions,
    by rw [hslice]; exact h.revisionChunks, by rw [hslice]; exact h.revisionWebpages⟩

/-- A fence leaves the slice of every other owner alone, and of an owner fenced before. -/
theorem slice_fenceOwner (h : owner ≠ u ∨ owner ∈ db.erasedOwners) :
    (db.fenceOwner u).slice owner = db.slice owner := by
  refine slice_congr rfl rfl rfl rfl rfl rfl ?_
  rw [mem_fenceOwner]
  rcases h with hne | hfenced
  · exact ⟨fun h => h.resolve_left hne, Or.inr⟩
  · exact ⟨fun _ => hfenced, fun _ => .inr hfenced⟩

end PortRag.Db.Database

namespace PortRag.Service

open PortRag.Foundation PortRag.Db PortRag.Security PortRag.Ingest

/-- How far a call of `erase` is: before its fence, `require_legacy_cleanup`, the `erase_user` of
the webpage worker and of the ingest worker, then in `erase_owner`, and before the deletes. -/
inductive ErasurePhase where
  | fencing
  | checking
  | drainingPages
  | drainingJobs
  | unstaging (task : Nat)
  | wiping
  deriving DecidableEq

/-- A call of `AccountErasureService.erase`, in one of the processes. -/
structure AccountErasure where
  id : Nat
  instanceId : Nat
  userId : Uuid
  phase : ErasurePhase
  deriving DecidableEq

/-- The two stores that the processes share, the erasures that are under way, and the owners for
whom one has returned. -/
structure ErasureSite where
  db : Database
  root : StagingRoot
  calls : Foundation.Table Nat AccountErasure (·.id)
  answered : List Uuid

/-- What happens at the two stores: a step of another part of the service, or of an erasure. -/
inductive ErasureEvent where
  /-- A transaction of any other part of the service. -/
  | serve (cipher : PrivateDataCipher) (call : ServiceCall)
  /-- A step at the staging root. -/
  | stage (event : StagingEvent)
  /-- `DELETE /users/{user_id}/data`. -/
  | request (id instanceId : Nat) (userId : Uuid)
  /-- An erasure goes on. -/
  | advance (id : Nat)
  /-- An erasure calls `erase_owner`. -/
  | unstage (id task : Nat)
  /-- An erasure raises. -/
  | raise (id : Nat)

/-- A process ends, with the calls in it. -/
def endsWith : StagingEvent → Nat → Bool
  | .crash instanceId, other => instanceId = other
  | .close instanceId, other => instanceId = other
  | _, _ => false

namespace ErasureSite

/-- `assert_active`, at the time of a step. -/
def admits (s : ErasureSite) (userId : Uuid) : Bool := (assertActive s.db userId).toBool

/-- An erasure is in this phase then. -/
def goOn (s : ErasureSite) (c : AccountErasure) (phase : ErasurePhase) : ErasureSite :=
  { s with calls := s.calls.set { c with phase := phase } }

/-- The next step of an erasure, other than its call of `erase_owner`. -/
def erase (s : ErasureSite) (c : AccountErasure) : Option ErasureSite :=
  match c.phase with
  | .fencing => some { s.goOn c .checking with db := fence s.db c.userId }
  | .checking => some (s.goOn c .drainingPages)
  | .drainingPages => some (s.goOn c .drainingJobs)
  | .drainingJobs => none
  | .unstaging task =>
      match s.root.tasks.find? task with
      | some t =>
          if t.point = .erasure (.erased c.userId) then
            some { s.goOn c .wiping with root := s.root.goOn t none s.root.files }
          else none
      | none => none
  | .wiping =>
      some { s with
        db := Security.erase s.db c.userId
        calls := s.calls.keep (fun other => other.id ≠ c.id)
        answered := c.userId :: s.answered }

/-- One step of the site. -/
def step (s : ErasureSite) : ErasureEvent → Option ErasureSite
  | .serve cipher call => some { s with db := (call.exec cipher.privateData s.db).db }
  | .stage e =>
      match e with
      | .erase _ _ _ => none
      | _ => (s.root.step s.admits e).map (fun root =>
          { s with root := root, calls := s.calls.keep (fun c => !endsWith e c.instanceId) })
  | .request id instanceId userId =>
      if s.root.serves instanceId ∧ s.calls.find? id = none then
        some { s with calls := s.calls.set ⟨id, instanceId, userId, .fencing⟩ }
      else none
  | .advance id => (s.calls.find? id).bind s.erase
  | .unstage id task =>
      match s.calls.find? id with
      | some c =>
          if c.phase = .drainingJobs then
            (s.root.step s.admits (.erase task c.instanceId c.userId)).map (fun root =>
              { s.goOn c (.unstaging task) with root := root })
          else none
      | none => none
  | .raise id => some { s with calls := s.calls.keep (fun c => c.id ≠ id) }

/-- A step of the site, as a step of a run. -/
def StepTo (s : ErasureSite) (e : ErasureEvent) (_ : Unit) (s' : ErasureSite) : Prop :=
  s.step e = some s'

/-- No process has started and no erasure is under way; the stores hold whatever they hold. -/
def Initial (s : ErasureSite) : Prop := s.root.Initial ∧ s.calls = .empty ∧ s.answered = []

/-- What holds of the site in every state. -/
structure Sound (s : ErasureSite) : Prop where
  root : s.root.Sound
  /-- Past its first step, an erasure has fenced its owner. -/
  fenced : ∀ c ∈ s.calls.rows, c.phase ≠ .fencing → c.userId ∈ s.db.erasedOwners
  staged : ∀ t ∈ s.root.tasks.rows, ∀ p, t.point = .erasure p → p.owner ∈ s.db.erasedOwners
  draining : ∀ u ∈ s.db.erasedOwners, s.root.Draining u
  cleared : ∀ c ∈ s.calls.rows, c.phase = .wiping → s.root.Cleared c.userId
  answered : ∀ u ∈ s.answered,
    u ∈ s.db.erasedOwners ∧ s.root.Cleared u ∧ s.db.NoRows u

section Invariant

variable {s s' : ErasureSite} {u : Uuid}

theorem admits_of_fenced (h : u ∈ s.db.erasedOwners) : s.admits u = false := by
  rw [admits, assertActive, lockActiveOwner, if_pos h]
  rfl

theorem Initial.sound (h : s.Initial) : s.Sound := by
  obtain ⟨hroot, hcalls, hanswered⟩ := h
  have hnone : ∀ t, t ∉ s.root.tasks.rows := by
    rw [hroot.1]
    exact fun t => List.not_mem_nil
  have hcall : ∀ c, c ∉ s.calls.rows := by
    rw [hcalls]
    exact fun c => List.not_mem_nil
  refine ⟨hroot.sound, fun c hc => absurd hc (hcall c), fun t ht => absurd ht (hnone t),
    fun _ _ t ht => absurd ht (hnone t), fun c hc => absurd hc (hcall c), ?_⟩
  rw [hanswered]
  exact fun u hu => absurd hu List.not_mem_nil

/-- A step at the staging root that starts an erasure of fenced owners only. -/
theorem Sound.stage {e : StagingEvent} {root : StagingRoot} (h : s.Sound)
    (hstep : s.root.step s.admits e = some root)
    (herase : ∀ id instanceId userId, e = .erase id instanceId userId →
      userId ∈ s.db.erasedOwners) : Sound { s with root := root } where
  root := h.root.step hstep
  fenced := h.fenced
  staged := by
    intro t ht p hp
    rcases StagingRoot.erasure_before hstep ht hp with ⟨w, hw, p', hp', howner⟩ | ⟨id, i, he⟩
    · exact howner ▸ h.staged w hw p' hp'
    · exact herase id i _ he
  draining := fun u hu => (h.draining u hu).step h.root (admits_of_fenced hu) hstep
  cleared := by
    intro c hc hphase
    have hu := h.fenced c hc (by rw [hphase]; simp)
    exact (h.cleared c hc hphase).step (admits_of_fenced hu) hstep
  answered := by
    intro u hu
    obtain ⟨hfenced, hcleared, hrows⟩ := h.answered u hu
    exact ⟨hfenced, hcleared.step (admits_of_fenced hfenced) hstep, hrows⟩

/-- An erasure may go on, once what its new phase says holds. -/
theorem Sound.goOn (h : s.Sound) {c : AccountErasure} {phase : ErasurePhase}
    (hfenced : phase ≠ .fencing → c.userId ∈ s.db.erasedOwners)
    (hcleared : phase = .wiping → s.root.Cleared c.userId) : (s.goOn c phase).Sound where
  root := h.root
  fenced := by
    intro other hother hphase
    rcases Table.mem_set hother with rfl | hother
    · exact hfenced hphase
    · exact h.fenced other hother hphase
  staged := h.staged
  draining := h.draining
  cleared := by
    intro other hother hphase
    rcases Table.mem_set hother with rfl | hother
    · exact hcleared hphase
    · exact h.cleared other hother hphase
  answered := h.answered

theorem Sound.keepCalls (h : s.Sound) (p : AccountErasure → Bool) :
    Sound { s with calls := s.calls.keep p } :=
  ⟨h.root, fun c hc => h.fenced c (List.mem_of_mem_filter hc), h.staged, h.draining,
    fun c hc => h.cleared c (List.mem_of_mem_filter hc), h.answered⟩

/-- A transaction that unfences nobody and leaves the slices of fenced owners alone. -/
theorem Sound.database (h : s.Sound) {db : Database}
    (herased : db.erasedOwners = s.db.erasedOwners)
    (hslice : ∀ u ∈ s.db.erasedOwners, db.slice u = s.db.slice u) :
    Sound { s with db := db } where
  root := h.root
  fenced := fun c hc hphase => herased ▸ h.fenced c hc hphase
  staged := fun t ht p hp => herased ▸ h.staged t ht p hp
  draining := fun u hu => h.draining u (herased ▸ hu)
  cleared := h.cleared
  answered := by
    intro u hu
    obtain ⟨hfenced, hcleared, hrows⟩ := h.answered u hu
    exact ⟨herased ▸ hfenced, hcleared, hrows.of_slice (hslice u hfenced)⟩

/-- A call of the service acts for an owner who is not fenced. -/
theorem slice_serve (cipher : PrivateDataCipher) (call : ServiceCall) (db : Database)
    (hfenced : u ∈ db.erasedOwners) :
    (call.exec cipher.privateData db).db.erasedOwners = db.erasedOwners ∧
      (call.exec cipher.privateData db).db.slice u = db.slice u := by
  rcases call.frame cipher.privateData db with hsame | ⟨owner, -, hactive, hframe⟩
  · rw [hsame]
    exact ⟨rfl, rfl⟩
  · refine ⟨hframe.erased, hframe.others u ?_⟩
    rintro rfl
    exact hactive hfenced

theorem erasedOwners_serve (cipher : PrivateDataCipher) (call : ServiceCall) (db : Database) :
    (call.exec cipher.privateData db).db.erasedOwners = db.erasedOwners := by
  rcases call.frame cipher.privateData db with hsame | ⟨owner, -, -, hframe⟩
  · rw [hsame]
  · exact hframe.erased

theorem Sound.fence (h : s.Sound) (u : Uuid) : Sound { s with db := Security.fence s.db u } where
  root := h.root
  fenced := fun c hc hphase => (Database.mem_fenceOwner _ _ _).mpr (.inr (h.fenced c hc hphase))
  staged := fun t ht p hp => (Database.mem_fenceOwner _ _ _).mpr (.inr (h.staged t ht p hp))
  draining := by
    intro v hv t ht p hp howner
    -- whoever is staged for erasure was fenced before
    exact h.draining v (howner ▸ h.staged t ht p hp) t ht p hp howner
  cleared := h.cleared
  answered := by
    intro v hv
    obtain ⟨hfenced, hcleared, hrows⟩ := h.answered v hv
    exact ⟨(Database.mem_fenceOwner _ _ _).mpr (.inr hfenced), hcleared,
      hrows.of_slice (Database.slice_fenceOwner (.inr hfenced))⟩

theorem erasedOwners_erase {db : Database} (hfenced : u ∈ db.erasedOwners) :
    (Security.erase db u).erasedOwners = db.erasedOwners := by
  show (db.fenceOwner u).erasedOwners = _
  rw [Database.fenceOwner_erasedOwners, if_pos hfenced]

theorem slice_erase {db : Database} {owner : Uuid} (hne : owner ≠ u) :
    (Security.erase db u).slice owner = db.slice owner :=
  (Database.slice_deleteOwner hne).trans (Database.slice_fenceOwner (.inl hne))

/-- The deletes of an erasure whose originals are gone keep the invariant: from then on the erasure
counts as answered, and nothing of its owner is left to come back. -/
theorem Sound.wipe (h : s.Sound) (hfenced : u ∈ s.db.erasedOwners) (hcleared : s.root.Cleared u)
    (p : AccountErasure → Bool) :
    Sound { s with
      db := Security.erase s.db u
      calls := s.calls.keep p
      answered := u :: s.answered } where
  root := h.root
  fenced := by
    intro c hc hphase
    rw [erasedOwners_erase hfenced]
    exact h.fenced c (List.mem_of_mem_filter hc) hphase
  staged := by
    intro t ht p hp
    rw [erasedOwners_erase hfenced]
    exact h.staged t ht p hp
  draining := by
    intro v hv
    rw [erasedOwners_erase hfenced] at hv
    exact h.draining v hv
  cleared := fun c hc hphase => h.cleared c (List.mem_of_mem_filter hc) hphase
  answered := by
    intro v hv
    rw [erasedOwners_erase hfenced]
    by_cases hne : v = u
    · subst hne
      exact ⟨hfenced, hcleared, Database.noRows_deleteOwner⟩
    · obtain ⟨hv', hclear, hrows⟩ := h.answered v ((List.mem_cons.mp hv).resolve_left hne)
      exact ⟨hv', hclear, hrows.of_slice (slice_erase hne)⟩

/-- A step of an erasure keeps the invariant, wherever the erasure stands. -/
theorem Sound.erase {c : AccountErasure} (h : s.Sound) (hc : c ∈ s.calls.rows)
    (hstep : s.erase c = some s') : s'.Sound := by
  unfold ErasureSite.erase at hstep
  split at hstep
  · cases hstep
    exact (h.fence c.userId).goOn (fun _ => (Database.mem_fenceOwner _ _ _).mpr (.inl rfl))
      (fun hphase => by cases hphase)
  · next hphase =>
      cases hstep
      exact h.goOn (fun _ => h.fenced c hc (by rw [hphase]; simp)) (fun hphase => by cases hphase)
  · next hphase =>
      cases hstep
      exact h.goOn (fun _ => h.fenced c hc (by rw [hphase]; simp)) (fun hphase => by cases hphase)
  · cases hstep
  · next task hphase =>
      have hfenced := h.fenced c hc (by rw [hphase]; simp)
      split at hstep
      · next t hfind =>
          split at hstep
          · next hpoint =>
              cases hstep
              have ht := Table.find?_mem hfind
              have hact : s.root.act s.admits t .leave = some (none, s.root.files) := by
                rw [StagingRoot.act, if_neg (by rw [hpoint]; simp)]
              have hstage : s.root.step s.admits (.act t.id .leave) =
                  some (s.root.goOn t none s.root.files) := by
                rw [StagingRoot.step, Table.find?_of_mem ht]
                simp only [hact, Option.map_some]
              have hcleared := (h.draining c.userId hfenced).cleared ht hpoint
              have hstaged := h.stage hstage (fun _ _ _ he => by cases he)
              exact hstaged.goOn (fun _ => hfenced)
                (fun _ => hcleared.step (admits_of_fenced hfenced) hstage)
          · cases hstep
      · cases hstep
  · next hphase =>
      cases hstep
      exact h.wipe (h.fenced c hc (by rw [hphase]; simp)) (h.cleared c hc hphase) _

/-- Every step of the site keeps the invariant: the transactions of other calls, which a fence
refuses, the steps at the staging root with the ends of processes among them, and those of erasures.
-/
theorem Sound.step {e : ErasureEvent} (h : s.Sound) (hstep : s.step e = some s') : s'.Sound := by
  cases e with
  | serve cipher call =>
      cases hstep
      exact h.database (erasedOwners_serve cipher call s.db)
        (fun u hu => (slice_serve cipher call s.db hu).2)
  | stage e =>
      cases e with
      | erase id instanceId userId => cases hstep
      | _ =>
          simp only [ErasureSite.step, Option.map_eq_some_iff] at hstep
          obtain ⟨root, hroot, rfl⟩ := hstep
          exact (h.stage hroot (fun _ _ _ he => by cases he)).keepCalls _
  | request id instanceId userId =>
      rw [ErasureSite.step] at hstep
      split at hstep
      · cases hstep
        exact h.goOn (c := ⟨id, instanceId, userId, .fencing⟩) (fun hphase => absurd rfl hphase)
          (fun hphase => by cases hphase)
      · cases hstep
  | advance id =>
      obtain ⟨c, hfind, hstep⟩ := Option.bind_eq_some_iff.mp hstep
      exact h.erase (Table.find?_mem hfind) hstep
  | unstage id task =>
      rw [ErasureSite.step] at hstep
      split at hstep
      · next c hfind =>
          split at hstep
          · next hphase =>
              obtain ⟨root, hroot, rfl⟩ := Option.map_eq_some_iff.mp hstep
              have hfenced := h.fenced c (Table.find?_mem hfind) (by rw [hphase]; simp)
              have hstaged := h.stage hroot (fun _ _ _ he => by cases he; exact hfenced)
              exact hstaged.goOn (fun _ => hfenced) (fun hphase => by cases hphase)
          · cases hstep
      · cases hstep
  | raise id =>
      cases hstep
      exact h.keepCalls _

theorem sound_of_trace {s₀ : ErasureSite} {steps : List (Step ErasureSite ErasureEvent Unit)}
    (hinit : s₀.Initial) (h : Trace StepTo s₀ steps s) : s.Sound :=
  h.invariant hinit.sound fun hsound hstep => hsound.step hstep

/-- In every state of every run, an owner for whom an erasure has returned is fenced, has no row
in any table, and no staged original. -/
theorem erased_for_good {s₀ : ErasureSite} {steps : List (Step ErasureSite ErasureEvent Unit)}
    (hinit : s₀.Initial) (h : Trace StepTo s₀ steps s) (hu : u ∈ s.answered) :
    u ∈ s.db.erasedOwners ∧ s.db.NoRows u ∧ ∀ x ∈ s.root.files.originals, x.owner ≠ u := by
  obtain ⟨hfenced, hcleared, hrows⟩ := (sound_of_trace hinit h).answered u hu
  exact ⟨hfenced, hrows, hcleared.2⟩

/-- An owner with a document and nothing staged. -/
def storedSite : ErasureSite where
  db := ((ServiceCall.createDocument 7 0 1 "key" "name" "mime").exec .plain .empty).db
  root := ⟨⟨[], [], [], []⟩, .empty, []⟩
  calls := .empty
  answered := []

/-- A process starts, the owner uploads a file, and then the owner is erased. -/
def erasureRun : List ErasureEvent :=
  .stage (.start 10 1) :: List.replicate 6 (.stage (.act 10 .advance)) ++
  [.stage (.save 20 1 1), .stage (.act 20 .advance), .stage (.act 20 .advance),
    .stage (.act 20 (.create 5)), .stage (.act 20 .advance)] ++
  [.request 30 1 1, .advance 30, .advance 30, .advance 30, .unstage 30 40] ++
  List.replicate 7 (.stage (.act 40 .advance)) ++ [.advance 30, .advance 30]

theorem erasureRun_trace :
    ∃ s steps, Trace StepTo storedSite steps s ∧ 1 ∈ s.answered := by
  have hanswered : (erasureRun.foldlM step storedSite).map (fun s => s.answered) = some [1] := by
    decide
  obtain ⟨s, hs, hone⟩ := Option.map_eq_some_iff.mp hanswered
  obtain ⟨steps, htrace, -⟩ := exists_trace_of_foldlM hs
  exact ⟨s, steps, htrace, hone ▸ List.mem_cons_self⟩

theorem erased_for_good_sample : ∃ s steps, Trace StepTo storedSite steps s ∧
    (1 ∈ s.db.erasedOwners ∧ s.db.NoRows 1 ∧ ∀ x ∈ s.root.files.originals, x.owner ≠ 1) := by
  obtain ⟨s, steps, htrace, hone⟩ := erasureRun_trace
  have hinit : storedSite.Initial :=
    ⟨⟨rfl, ⟨fun _ hx => absurd hx List.not_mem_nil, fun _ hd => absurd hd List.not_mem_nil,
      fun _ hd => absurd hd List.not_mem_nil⟩⟩, rfl, rfl⟩
  exact ⟨s, steps, htrace, erased_for_good hinit htrace hone⟩

/-- The step deletes the rows of this owner: the last step of an erasure. -/
def Wipes (u : Uuid) (st : Step ErasureSite ErasureEvent Unit) : Prop :=
  ∃ c ∈ st.before.calls.rows, st.call = .advance c.id ∧ c.phase = .wiping ∧ c.userId = u

/-- The step fences this owner: the first step of an erasure. -/
def Fences (u : Uuid) (st : Step ErasureSite ErasureEvent Unit) : Prop :=
  ∃ c ∈ st.before.calls.rows, st.call = .advance c.id ∧ c.phase = .fencing ∧ c.userId = u

/-- A step of an erasure on the rows of any owner. -/
theorem erase_cases {c : AccountErasure} (hstep : s.erase c = some s') :
    s'.db = s.db ∨ (c.phase = .fencing ∧ s'.db = Security.fence s.db c.userId) ∨
      (c.phase = .wiping ∧ s'.db = Security.erase s.db c.userId) := by
  unfold ErasureSite.erase at hstep
  split at hstep
  · next hphase =>
      cases hstep
      exact .inr (.inl ⟨hphase, rfl⟩)
  · cases hstep
    exact .inl rfl
  · cases hstep
    exact .inl rfl
  · cases hstep
  · split at hstep
    · split at hstep
      · cases hstep
        exact .inl rfl
      · cases hstep
    · cases hstep
  · next hphase =>
      cases hstep
      exact .inr (.inr ⟨hphase, rfl⟩)

/-- The rows of an owner change only by a call that acts for this owner, while the owner is not
fenced; by the fence of the owner's erasure; or by its last step. -/
theorem slice_changed_by {st : Step ErasureSite ErasureEvent Unit}
    (hstep : StepTo st.before st.call st.answer st.after)
    (hchanged : st.after.db.slice u ≠ st.before.db.slice u) :
    (∃ cipher call, st.call = .serve cipher call ∧ call.actingFor st.before.db = some u ∧
        u ∉ st.before.db.erasedOwners) ∨
      (Fences u st ∧ u ∉ st.before.db.erasedOwners) ∨ Wipes u st := by
  obtain ⟨s, e, answer, s'⟩ := st
  change s.step e = some s' at hstep
  have hsame : s'.db = s.db → False := fun h => hchanged (congrArg (Database.slice · u) h)
  cases e with
  | serve cipher call =>
      cases hstep
      rcases call.frame cipher.privateData s.db with hframe | ⟨owner, hacting, hactive, hframe⟩
      · exact (hsame hframe).elim
      · by_cases hne : u = owner
        · subst hne
          exact .inl ⟨cipher, call, rfl, hacting, hactive⟩
        · exact absurd (hframe.others u hne) hchanged
  | stage e =>
      cases e with
      | erase id instanceId userId => cases hstep
      | _ =>
          simp only [ErasureSite.step, Option.map_eq_some_iff] at hstep
          obtain ⟨root, -, rfl⟩ := hstep
          exact (hsame rfl).elim
  | request id instanceId userId =>
      obtain ⟨-, heq⟩ := Option.ite_none_right_eq_some.mp hstep
      cases heq
      exact (hsame rfl).elim
  | advance id =>
      obtain ⟨c, hfind, hnext⟩ := Option.bind_eq_some_iff.mp hstep
      obtain ⟨hc, rfl⟩ := Table.find?_eq_some_iff.mp hfind
      rcases erase_cases hnext with hdb | ⟨hphase, hdb⟩ | ⟨hphase, hdb⟩
      · exact (hsame hdb).elim
      · have hslice : u = c.userId ∧ u ∉ s.db.erasedOwners := by
          by_contra hother
          refine hchanged ?_
          show s'.db.slice u = _
          rw [hdb]
          exact Database.slice_fenceOwner (by tauto)
        exact .inr (.inl ⟨⟨c, hc, rfl, hphase, hslice.1.symm⟩, hslice.2⟩)
      · have hslice : u = c.userId := by
          by_contra hother
          refine hchanged ?_
          show s'.db.slice u = _
          rw [hdb]
          exact slice_erase hother
        exact .inr (.inr ⟨c, hc, rfl, hphase, hslice.symm⟩)
  | unstage id task =>
      rw [ErasureSite.step] at hstep
      split at hstep
      · obtain ⟨-, hstep⟩ := Option.ite_none_right_eq_some.mp hstep
        obtain ⟨root, -, rfl⟩ := Option.map_eq_some_iff.mp hstep
        exact (hsame rfl).elim
      · cases hstep
  | raise id =>
      cases hstep
      exact (hsame rfl).elim

/-- A fence is for good: no step takes an owner off the list, and a rollback is none. -/
theorem fenced_step {e : ErasureEvent} (hfenced : u ∈ s.db.erasedOwners)
    (hstep : s.step e = some s') : u ∈ s'.db.erasedOwners := by
  cases e with
  | serve cipher call =>
      cases hstep
      exact (erasedOwners_serve cipher call s.db).symm ▸ hfenced
  | stage e =>
      cases e with
      | erase id instanceId userId => cases hstep
      | _ =>
          simp only [ErasureSite.step, Option.map_eq_some_iff] at hstep
          obtain ⟨root, -, rfl⟩ := hstep
          exact hfenced
  | request id instanceId userId =>
      obtain ⟨-, heq⟩ := Option.ite_none_right_eq_some.mp hstep
      cases heq
      exact hfenced
  | advance id =>
      obtain ⟨c, -, hstep⟩ := Option.bind_eq_some_iff.mp hstep
      have hfence : u ∈ (s.db.fenceOwner c.userId).erasedOwners :=
        (Database.mem_fenceOwner _ _ _).mpr (.inr hfenced)
      rcases erase_cases hstep with hdb | ⟨-, hdb⟩ | ⟨-, hdb⟩
      · exact hdb ▸ hfenced
      · exact hdb ▸ hfence
      · exact hdb ▸ hfence
  | unstage id task =>
      rw [ErasureSite.step] at hstep
      split at hstep
      · obtain ⟨-, hstep⟩ := Option.ite_none_right_eq_some.mp hstep
        obtain ⟨root, -, rfl⟩ := Option.map_eq_some_iff.mp hstep
        exact hfenced
      · cases hstep
  | raise id =>
      cases hstep
      exact hfenced

/-- Erasing is all or nothing.  From its fence on, whatever raises in an erasure or beside it, an
owner stays fenced, and every row of the owner stays as it is until the last step of an erasure
deletes them all.  And no step of an erasure changes a row of another owner: the rows of an owner
change only by that owner's own calls, before the fence, and by that owner's own erasure. -/
theorem erasure_all_or_nothing {m : ErasureSite} {steps : List (Step ErasureSite ErasureEvent Unit)}
    (h : Trace StepTo m steps s) :
    (∀ u ∈ m.db.erasedOwners, u ∈ s.db.erasedOwners ∧
      (s.db.slice u = m.db.slice u ∨ ∃ st ∈ steps, Wipes u st)) ∧
    ∀ st ∈ steps, ∀ u, st.after.db.slice u ≠ st.before.db.slice u →
      (∃ cipher call, st.call = .serve cipher call ∧ call.actingFor st.before.db = some u ∧
        u ∉ st.before.db.erasedOwners) ∨
      (Fences u st ∧ u ∉ st.before.db.erasedOwners) ∨ Wipes u st := by
  refine ⟨?_, fun st hst u hchanged => slice_changed_by (h.step_of_mem hst) hchanged⟩
  intro u hfenced
  by_cases hwipes : ∃ st ∈ steps, Wipes u st
  · exact ⟨h.invariant (I := fun s => u ∈ s.db.erasedOwners) hfenced
      (fun hu hstep => fenced_step hu hstep), .inr hwipes⟩
  · have hkept : u ∈ s.db.erasedOwners ∧ s.db.slice u = m.db.slice u := by
      refine h.holds_through (P := fun s => u ∈ s.db.erasedOwners ∧ s.db.slice u = m.db.slice u)
        ⟨hfenced, rfl⟩ ?_
      rintro st hst hstep ⟨hu, hslice⟩
      refine ⟨fenced_step hu hstep, ?_⟩
      by_contra hchanged
      rw [← hslice] at hchanged
      rcases slice_changed_by hstep hchanged with ⟨_, _, -, -, hactive⟩ | ⟨-, hactive⟩ | hwipe
      · exact hactive hu
      · exact hactive hu
      · exact hwipes ⟨st, hst, hwipe⟩
    exact ⟨hkept.1, .inl hkept.2⟩

theorem erasure_all_or_nothing_sample : ∃ s steps, Trace StepTo storedSite steps s ∧
    (∀ u ∈ storedSite.db.erasedOwners, u ∈ s.db.erasedOwners ∧
      (s.db.slice u = storedSite.db.slice u ∨ ∃ st ∈ steps, Wipes u st)) ∧
    ∀ st ∈ steps, ∀ u, st.after.db.slice u ≠ st.before.db.slice u →
      (∃ cipher call, st.call = .serve cipher call ∧ call.actingFor st.before.db = some u ∧
        u ∉ st.before.db.erasedOwners) ∨
      (Fences u st ∧ u ∉ st.before.db.erasedOwners) ∨ Wipes u st := by
  obtain ⟨s, steps, htrace, -⟩ := erasureRun_trace
  exact ⟨s, steps, htrace, erasure_all_or_nothing htrace⟩

end Invariant

end ErasureSite

end PortRag.Service
