import PortRag.Service.FileSafety

set_option autoImplicit false

/-!
# Published once

From its publication on nothing of a file document changes until it is deleted, but for its status,
its error and the vectors of its chunks: no retry publishes it a second time, no reindex touches a
text, and its identifier is not given to another document.
-/

namespace PortRag.Service

open PortRag.Foundation PortRag.Db PortRag.Security PortRag.Http PortRag.Ingest PortRag.Webpages
  PortRag.Knowledge

/-- What lasts of a published document: all but its status, and all but the vectors of its
chunks. -/
def FileView.lasting (v : FileView) : Document × List (Uuid × Uuid × Int × String × Json) :=
  (settledDocument v.document .ready none 0, v.chunks.map payload)

theorem FileView.lasting_settled (v : FileView) (status : DocumentStatus) (error : Option String)
    (now : Time) : (v.settled status error now).lasting = v.lasting := rfl

theorem FileView.lasting_reembed {v : FileView} {embeddings : List Embedding}
    (h : v.chunks.length = embeddings.length) : (v.reembed embeddings).lasting = v.lasting :=
  congrArg (Prod.mk _) (FileView.map_reembed (fun _ _ => rfl) h)

theorem FileView.chunks_ne_nil {v v' : FileView} (h : v'.lasting = v.lasting)
    (hne : v.chunks ≠ []) : v'.chunks ≠ [] := by
  have hpayloads : v'.chunks.map payload = v.chunks.map payload := congrArg Prod.snd h
  intro hnil
  rw [hnil, List.map_nil] at hpayloads
  exact hne (List.map_eq_nil_iff.mp hpayloads.symm)

namespace FileService

variable {opens : Opens} {s s' m : FileService} {id : Uuid} {v v' : FileView}

/-! ## Steps -/

/-- The document was there before, and if it had chunks, what lasts of it is the same. -/
def Lasts (s : FileService) (id : Uuid) (v' : FileView) : Prop :=
  ∃ v, fileOf s.db id = some v ∧ (v.chunks ≠ [] → v'.lasting = v.lasting)

theorem Lasts.same (h : fileOf s.db id = some v) : s.Lasts id v := ⟨v, h, fun _ => rfl⟩

theorem Lasts.attempt {α : Type} {outage : Option Exc} {o o' : Outcome α}
    (ho : Service.attempt s.db outage o = o')
    (hlasts : ∀ v', fileOf o.db id = some v' → s.Lasts id v') (hv' : fileOf o'.db id = some v') :
    s.Lasts id v' := by
  rcases attempt_cases s.db outage o with hsame | hsame
  · rw [← ho, hsame] at hv'
    exact .same hv'
  · rw [← ho, hsame] at hv'
    exact hlasts v' hv'

theorem Lasts.marked {marked : Uuid} {db' : Database}
    (hmark : db' = s.db ∨ MarksFailed s.db marked db') (hv' : fileOf db' id = some v') :
    s.Lasts id v' := by
  rcases hmark with rfl | ⟨error, now, hmark⟩
  · exact .same hv'
  · rw [hmark] at hv'
    split at hv'
    · next hid =>
        subst hid
        obtain ⟨v, hv, rfl⟩ := Option.map_eq_some_iff.mp hv'
        exact ⟨v, hv, fun _ => v.lasting_settled .failed error now⟩
    · exact .same hv'

/-- A job publishes only a document that has no chunks yet. -/
theorem Sound.job_lasts (h : s.Sound opens) {t : IngestTask} (ht : t ∈ s.jobs.rows)
    {action : IngestAction} (hpossible : s.Possible opens (.job t.id action))
    {next : Option IngestPoint} {db' : Database} (hact : t.Acts s.db action next db')
    (hv' : fileOf db' id = some v') : s.Lasts id v' := by
  cases hact with
  | enqueued => exact .same hv'
  | prepared => exact .same hv'
  | quitted => exact .same hv'
  | published hpoint cipher uuid4 now outage ho =>
      refine .attempt ho (fun w hw => ?_) hv'
      rcases replaceChunks_files hpossible rfl with hidle | ⟨-, hothers, hfile⟩
      · rw [hidle] at hw
        exact .same hw
      by_cases hid : id = t.id
      · subst hid
        obtain ⟨v, rows, hv, -, -⟩ := hfile w hw
        exact ⟨v, hv, fun hne => absurd (h.awaited t ht v hv) hne⟩
      · rw [hothers id hid] at hw
        exact .same hw
  | unavailable hpoint cipher now outage ho =>
      exact .attempt ho (fun w hw => .marked (markStorageUnavailable_marksFailed rfl) hw) hv'
  | failed hpoint cipher now outage ho =>
      exact .attempt ho (fun w hw => .marked (markFailed_marksFailed rfl) hw) hv'

/-- A reindex writes vectors, or the failure of its document. -/
theorem reindex_lasts {t : ReindexTask} {action : ReindexAction} {next : Option ReindexPoint}
    {db' : Database} (hact : t.Acts s.db action next db') (hv' : fileOf db' id = some v') :
    s.Lasts id v' := by
  cases hact with
  | refused => exact .same hv'
  | read => exact .same hv'
  | embedded => exact .same hv'
  | quitted => exact .same hv'
  | stored hpoint now outage ho =>
      refine .attempt ho (fun w hw => ?_) hv'
      rcases replaceEmbeddings_files rfl with hidle | ⟨hlength, hfile⟩
      · rw [hidle] at hw
        exact .same hw
      rw [hfile] at hw
      split at hw
      · next hid =>
          subst hid
          obtain ⟨v, hv, rfl⟩ := Option.map_eq_some_iff.mp hw
          refine ⟨v, hv, fun _ => ?_⟩
          rw [FileView.lasting_settled]
          exact FileView.lasting_reembed (hlength v hv)
      · exact .same hw
  | failed hpoint cipher now outage ho =>
      exact .attempt ho (fun w hw => .marked (markReindexFailed_marksFailed rfl) hw) hv'

/-- Every step lets a document that is there last: what the step changes in it is its status, its
error or its vectors, and a document that a step creates has an identifier that was not used. -/
theorem Sound.lasts (h : s.Sound opens) {e : FileEvent} {u : Unit} (hstep : StepTo opens s e u s')
    (hid : id ∈ s.used) (hv' : fileOf s'.db id = some v') : s.Lasts id v' := by
  obtain ⟨hpossible, hstep⟩ := hstep
  cases e with
  | create cipher job now knowledgeKey name mime =>
      obtain ⟨hfresh, hstep⟩ := Option.ite_none_left_eq_some.mp hstep
      cases hstep
      change fileOf (createProcessingDocument cipher.privateData job.documentId now s.db job.userId
        knowledgeKey name mime).db id = some v' at hv'
      rcases createDocument_files rfl with hsame | ⟨document, -, hfile⟩
      · rw [hsame] at hv'
        exact .same hv'
      · have hother : id ≠ job.documentId := fun heq => hfresh (heq ▸ hid)
        rw [hfile, if_neg hother] at hv'
        exact .same hv'
  | job id action =>
      obtain ⟨t, ht, hstep⟩ := Option.bind_eq_some_iff.mp hstep
      obtain ⟨⟨next, db'⟩, hact, rfl⟩ := Option.map_eq_some_iff.mp hstep
      obtain rfl := Table.find?_key ht
      exact h.job_lasts (Table.find?_mem ht) hpossible (IngestTask.acts hact) hv'
  | request id documentId userId =>
      obtain ⟨-, hstep⟩ := Option.ite_none_right_eq_some.mp hstep
      cases hstep
      exact .same hv'
  | reindex id action =>
      obtain ⟨t, -, hstep⟩ := Option.bind_eq_some_iff.mp hstep
      obtain ⟨⟨next, db'⟩, hact, rfl⟩ := Option.map_eq_some_iff.mp hstep
      exact reindex_lasts (ReindexTask.acts hact) hv'
  | serve cipher call =>
      obtain ⟨hbeside, hstep⟩ := Option.ite_none_left_eq_some.mp hstep
      rw [not_or, Bool.not_eq_true] at hbeside
      cases hstep
      exact .same (call.keepsFiles cipher.privateData hbeside.1 s.db id v' hv')
  | fence userId =>
      cases hstep
      exact .same hv'
  | erase userId =>
      cases hstep
      exact .same (keepsFiles_deleteOwner (s.db.fenceOwner userId) userId id v' hv')

/-- An identifier that was given stays given, also after the document is deleted. -/
theorem used_step {e : FileEvent} (hstep : s.step e = some s') (hid : id ∈ s.used) :
    id ∈ s'.used := by
  cases e with
  | create cipher job now knowledgeKey name mime =>
      obtain ⟨-, hstep⟩ := Option.ite_none_left_eq_some.mp hstep
      cases hstep
      exact List.mem_cons_of_mem _ hid
  | job id action =>
      obtain ⟨t, -, hstep⟩ := Option.bind_eq_some_iff.mp hstep
      obtain ⟨r, -, rfl⟩ := Option.map_eq_some_iff.mp hstep
      exact hid
  | request id documentId userId =>
      obtain ⟨-, hstep⟩ := Option.ite_none_right_eq_some.mp hstep
      cases hstep
      exact hid
  | reindex id action =>
      obtain ⟨t, -, hstep⟩ := Option.bind_eq_some_iff.mp hstep
      obtain ⟨r, -, rfl⟩ := Option.map_eq_some_iff.mp hstep
      exact hid
  | serve cipher call =>
      obtain ⟨-, hstep⟩ := Option.ite_none_left_eq_some.mp hstep
      cases hstep
      exact List.mem_append_right _ hid
  | fence userId =>
      cases hstep
      exact hid
  | erase userId =>
      cases hstep
      exact hid

/-! ## Runs -/

theorem Sound.lasts_run (hsound : m.Sound opens) (hid : id ∈ m.used)
    {steps : List (Step FileService FileEvent Unit)} (h : Trace (StepTo opens) m steps s) :
    ∀ v', fileOf s.db id = some v' → m.Lasts id v' := by
  induction h with
  | nil => exact fun v' hv' => .same hv'
  | snoc hrest hlast ih =>
      intro v' hv'
      have hmid := hrest.invariant hsound fun hs hstep => hs.step hstep
      have hused := hrest.invariant (I := fun s => id ∈ s.used) hid
        fun hs hstep => used_step hstep.2 hs
      obtain ⟨w, hw, hsame⟩ := hmid.lasts hlast hused hv'
      obtain ⟨v, hv, hfirst⟩ := ih w hw
      refine ⟨v, hv, fun hne => ?_⟩
      have hlasting := hfirst hne
      exact (hsame (FileView.chunks_ne_nil hlasting hne)).trans hlasting

/-- A file document that is ready keeps all but its status, its error and its vectors as long as
it is there, whatever jobs, reindexes and other calls follow, and is never in processing again.
The document that is there later is the same one because `step` gives no identifier twice. -/
theorem published_once {s₀ : FileService} {before after : List (Step FileService FileEvent Unit)}
    (hinit : s₀.Initial) (hbefore : Trace (StepTo opens) s₀ before m)
    (hafter : Trace (StepTo opens) m after s) (hv : fileOf m.db id = some v)
    (hready : v.document.status = .ready) (hv' : fileOf s.db id = some v') :
    v'.lasting = v.lasting ∧ v'.document.status ≠ .processing := by
  have hsound : m.Sound opens := hbefore.invariant hinit.sound fun hs hstep => hs.step hstep
  have hsound' : s.Sound opens := hafter.invariant hsound fun hs hstep => hs.step hstep
  have hid : id ∈ m.used := hsound.known id _ (fileOf_eq_some_iff.mp hv).1
  have hne : v.chunks ≠ [] := by
    rcases hsound.files id v hv with hun | hpub
    · exact absurd hready hun.status
    · exact hpub.nonempty
  obtain ⟨w, hw, hsame⟩ := hsound.lasts_run hid hafter v' hv'
  obtain rfl := Option.some.inj (hv.symm.trans hw)
  have hlasting := hsame hne
  refine ⟨hlasting, ?_⟩
  rcases hsound'.files id v' hv' with hun | hpub
  · exact absurd hun.chunks (FileView.chunks_ne_nil hlasting hne)
  · exact hpub.status

/-- In the run of before, document 5 is reindexed after its publication, while a document is deleted
and an owner erased. -/
theorem published_once_sample : ∃ m s before after v v',
    Trace (StepTo sourceOpens) wholeStart before m ∧ Trace (StepTo sourceOpens) m after s ∧
    fileOf m.db 5 = some v ∧ fileOf s.db 5 = some v' ∧ v'.chunks ≠ v.chunks ∧
    v'.lasting = v.lasting ∧ v'.document.status ≠ .processing := by
  have hvectors : ((wholeRun.take 8).foldlM step wholeStart).bind (fun m =>
      ((wholeRun.drop 8).foldlM step m).bind fun s => (fileOf m.db 5).bind fun v =>
        (fileOf s.db 5).map fun v' => (v.document.status, v.chunks.map (·.embedding),
          v'.chunks.map (·.embedding))) = some (.ready, [[1]], [[2]]) := by decide +kernel
  obtain ⟨m, hm, hvectors⟩ := Option.bind_eq_some_iff.mp hvectors
  obtain ⟨s, hs, hvectors⟩ := Option.bind_eq_some_iff.mp hvectors
  obtain ⟨v, hv, hvectors⟩ := Option.bind_eq_some_iff.mp hvectors
  obtain ⟨v', hv', hvectors⟩ := Option.map_eq_some_iff.mp hvectors
  simp only [Prod.mk.injEq] at hvectors
  obtain ⟨hready, hfirst, hlast⟩ := hvectors
  obtain ⟨before, hbefore⟩ := exists_trace
    (fun e he => wholeRun_possible e (List.mem_of_mem_take he)) hm
  obtain ⟨after, hafter⟩ := exists_trace
    (fun e he => wholeRun_possible e (List.mem_of_mem_drop he)) hs
  have hinit : wholeStart.Initial := ⟨rfl, rfl, rfl⟩
  refine ⟨m, s, before, after, v, v', hbefore, hafter, hv, hv', ?_,
    published_once hinit hbefore hafter hv hready hv'⟩
  intro hsame
  rw [hsame, hfirst] at hlast
  cases hlast

end FileService

end PortRag.Service
