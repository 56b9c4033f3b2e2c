import PortRag.Foundation.Simulation
import PortRag.Webpages.Publication
import PortRag.Webpages.Readers
import PortRag.Webpages.Worker

set_option autoImplicit false

/-!
# Chunk previews show one version

From the moment it holds its rows a preview sees them as they were then, whatever commits in
between, so count and page describe one stored version: the chunks of the last publication
before, or none.  Previews that follow each other while nothing is published read on in the
same list.
-/

namespace PortRag.Webpages

open PortRag.Foundation PortRag.Db PortRag.Security PortRag.Http PortRag.Ingest

/-! ## The transactions of a run -/

/-- The transaction that a turn commits. -/
def eventOf (st : TurnStep) : Option EventStep :=
  match st.call, st.answer with
  | .commits _ e, .written a => some ⟨st.before.db, e, a, st.after.db⟩
  | .acts e, .written a => some ⟨st.before.db, e, a, st.after.db⟩
  | _, _ => none

/-- The repository call of a transaction. -/
def methodOf (ev : EventStep) : Option MethodStep :=
  match ev.call with
  | .call c => some ⟨ev.before, .call c, ev.answer, ev.after⟩
  | _ => none

/-- The repository call that a turn commits. -/
def methodAt (st : TurnStep) : Option MethodStep := (eventOf st).bind methodOf

/-- The repository calls that a run commits, in the order of their commits. -/
def methods (steps : List TurnStep) : List MethodStep := steps.filterMap methodAt

/-- The turn commits neither a publication nor a registration of `id`. -/
def LeavesVersion (st : TurnStep) (id : Uuid) : Prop :=
  (∀ ev, eventOf st = some ev → ¬ Registers ev id) ∧
    ∀ m, methodAt st = some m → ∀ content contentHash chunks embeddings,
      ¬ Publishes m id content contentHash chunks embeddings

/-- The chunks that a document has at this point of a run: those of its last publication,
and none before its first. -/
def Version (opens : Opens) (steps : List TurnStep) (db : Database) (id : Uuid)
    (chunks : List IngestChunk) : Prop :=
  ∃ v, viewOf db id = some v ∧
    ((v.page.contentHash = none ∧ v.chunks = [] ∧ chunks = []) ∨
      ∃ args, LastPublication (methods steps) id args ∧ v.Holds opens args ∧ chunks = args.chunks)

/-! ## Previews of a run -/

/-- Number, text and source of a chunk as a preview returns them. -/
def WebpageChunk.source (c : WebpageChunk) : Int × String × Except Exc Json :=
  (c.seq, c.text, .ok c.sourceUrl)

/-- The result is the total and the asked slice of these chunks, in the order of `seq`. -/
structure WebpageChunks.Shows (r : WebpageChunks) (q : PreviewRequest)
    (chunks : List IngestChunk) : Prop where
  documentId : r.documentId = q.documentId
  total : r.total = chunks.length
  chunks : r.chunks.map WebpageChunk.source =
    (((sortedBy (fun c : IngestChunk => c.seq) chunks).drop q.offset).take q.limit).map chunkSource

/-- Preview `q` got hold of its rows at `hold` and returned `r` at `page`. -/
def Previewed (hold page : TurnStep) (q : PreviewRequest) (r : WebpageChunks) : Prop :=
  ∃ i total, hold.call = .holds i ∧ hold.answer = .silent ∧
    hold.before.sessions i = .reading q .admitted ∧
    page.call = .pages i ∧ page.before.sessions i = .reading q (.counted total) ∧
    page.answer = .preview (.ok (some r))

/-- Preview `q` ran from its hold to its result within these turns. -/
def PreviewedIn (steps : List TurnStep) (q : PreviewRequest) (r : WebpageChunks) : Prop :=
  ∃ first hold mid page last, steps = first ++ hold :: (mid ++ page :: last) ∧
    Previewed hold page q r

section Progress

variable {opens : Opens} {s s' : Floor} {turn : Turn} {answer : Response} {i : Nat}
  {q : PreviewRequest}

/-- The preview has come this far with the rows as they were on the floor `held`. -/
def ReadsSince (held : Floor) (i : Nat) (q : PreviewRequest) (s : Floor) : Prop :=
  s.sessions i = .ended ∨
    ∃ progress, s.sessions i = .reading q progress ∧
      viewOf s.db q.documentId = viewOf held.db q.documentId ∧
      (progress = .holding ∨ progress = .counted (held.db.chunksOf q.documentId).length)

/-- What a turn does to a preview that holds its rows: it goes on to count them, it ends, or it
stays; and while it holds them, nobody else changes them. -/
theorem reading_step (h : Floor.Runs opens s turn answer s') {progress : Progress}
    (hat : s.sessions i = .reading q progress)
    (hprogress : progress = .holding ∨ ∃ total, progress = .counted total) :
    s'.sessions i = .reading q progress ∨ s'.sessions i = .ended ∨
      (progress = .holding ∧ s'.db = s.db ∧
        s'.sessions i = .reading q (.counted (s.db.chunksOf q.documentId).length)) := by
  have hother : ∀ {j : Nat} {session : Session}, i ≠ j →
      (s.put j session).sessions i = .reading q progress :=
    fun hij => (s.put_of_ne _ hij).trans hat
  have hends : ∀ {j : Nat}, (s.put j .ended).sessions i = .reading q progress ∨
      (s.put j .ended).sessions i = .ended := by
    intro j
    by_cases hij : i = j
    · subst hij
      exact .inr (s.put_self i _)
    · exact .inl (hother hij)
  cases h with
  | acted => exact .inl hat
  | committed => exact hends.imp_right .inl
  | refused => exact hends.imp_right .inl
  | missed => exact hends.imp_right .inl
  | paged => exact hends.imp_right .inl
  | abandoned => exact hends.imp_right .inl
  | @opened j q' hfresh =>
      refine .inl (hother fun hij => ?_)
      subst hij
      rw [hat] at hfresh
      cases hfresh
  | @locked j e id hfresh =>
      refine .inl (hother fun hij => ?_)
      subst hij
      rw [hat] at hfresh
      cases hfresh
  | @admitted j q' hat' =>
      refine .inl (hother fun hij => ?_)
      subst hij
      rw [hat] at hat'
      cases hat'
      simp at hprogress
  | @held j q' rows hat' =>
      refine .inl (hother fun hij => ?_)
      subst hij
      rw [hat] at hat'
      cases hat'
      simp at hprogress
  | @counted j q' hat' =>
      by_cases hij : i = j
      · subst hij
        rw [hat] at hat'
        cases hat'
        exact .inr (.inr ⟨rfl, rfl, s.put_self i _⟩)
      · exact .inl (hother hij)

/-- An ended transaction stays ended. -/
theorem ended_step (h : Floor.Runs opens s turn answer s') (hat : s.sessions i = .ended) :
    s'.sessions i = .ended := by
  have hother : ∀ {j : Nat} {session : Session}, s.sessions j ≠ .ended →
      (s.put j session).sessions i = .ended := by
    intro j session hj
    refine (s.put_of_ne _ fun hij => hj ?_).trans hat
    rw [← hij, hat]
  have hends : ∀ {j : Nat}, (s.put j .ended).sessions i = .ended := by
    intro j
    rw [Floor.put_sessions]
    split
    · rfl
    · exact hat
  cases h with
  | acted => exact hat
  | committed => exact hends
  | refused => exact hends
  | missed => exact hends
  | paged => exact hends
  | abandoned => exact hends
  | opened hfresh => exact hother (by simp [hfresh])
  | locked hfresh => exact hother (by simp [hfresh])
  | admitted hat' => exact hother (by simp [hat'])
  | held hat' => exact hother (by simp [hat'])
  | counted hat' => exact hother (by simp [hat'])

theorem held_reading {progress : Progress}
    (hprogress : progress = .holding ∨ ∃ total, progress = .counted total) :
    (Session.reading q progress).held = some (.share, q.documentId) := by
  rcases hprogress with rfl | ⟨total, rfl⟩ <;> rfl

/-- A preview that holds its rows goes on with them as they were. -/
theorem ReadsSince.step {held : Floor} (hs : s.Sound) (h : Floor.Runs opens s turn answer s')
    (hreads : ReadsSince held i q s) : ReadsSince held i q s' := by
  rcases hreads with hended | ⟨progress, hat, hview, hprogress⟩
  · exact .inl (ended_step h hended)
  have hheld : progress = .holding ∨ ∃ total, progress = .counted total :=
    hprogress.imp_right (fun hcounted => ⟨_, hcounted⟩)
  have hbefore : (s.sessions i).held = some (.share, q.documentId) := by
    rw [hat]
    exact held_reading hheld
  rcases reading_step h hat hheld with hsame | hended | ⟨rfl, hdb, hcounted⟩
  · refine .inr ⟨progress, hsame, ?_, hprogress⟩
    have hafter : (s'.sessions i).held = some (.share, q.documentId) := by
      rw [hsame]
      exact held_reading hheld
    rw [hs.unchanged h hbefore hafter, hview]
  · exact .inl hended
  · refine .inr ⟨_, hcounted, by rw [hdb, hview], .inr ?_⟩
    obtain ⟨v, hv⟩ : ∃ v, viewOf s.db q.documentId = some v :=
      Option.isSome_iff_exists.mp (hs.locks.exists_row hbefore)
    have hv' : viewOf held.db q.documentId = some v := hview ▸ hv
    rw [(viewOf_eq_some_iff.mp hv).2.2, (viewOf_eq_some_iff.mp hv').2.2]

end Progress

/-! ## From hold to page -/

section Runs

variable {opens : Opens} {start s m : Floor} {steps : List TurnStep}

/-- A `holds` turn without an answer found the rows and held them. -/
theorem runs_holds {s' : Floor} {i : Nat} (h : Floor.Runs opens s (.holds i) .silent s') :
    ∃ q rows, s.sessions i = .reading q .admitted ∧
      select s.db q.documentId q.userId = some rows ∧ s' = s.put i (.reading q .holding) := by
  cases h with
  | held hat hselect => exact ⟨_, _, hat, hselect, rfl⟩

/-- What a `pages` turn answered. -/
theorem runs_pages {s' : Floor} {i : Nat} {result : Except Exc (Option WebpageChunks)}
    (h : Floor.Runs opens s (.pages i) (.preview result) s') :
    ∃ q total rows, s.sessions i = .reading q (.counted total) ∧
      Pages (fun c : DocumentChunk => c.seq) q.offset q.limit (s.db.chunksOf q.documentId) rows ∧
      result = q.result total rows := by
  cases h with
  | paged hat hrows => exact ⟨_, _, _, hat, hrows, rfl⟩

/-- Only the last statement of a preview returns chunks. -/
theorem runs_preview {s' : Floor} {turn : Turn} {r : WebpageChunks}
    (h : Floor.Runs opens s turn (.preview (.ok (some r))) s') :
    ∃ i q total, turn = .pages i ∧ s.sessions i = .reading q (.counted total) := by
  generalize hanswer : Response.preview (.ok (some r)) = answer at h
  cases h with
  | paged hat => exact ⟨_, _, _, rfl, hat⟩
  | _ => cases hanswer

/-- What a preview returned, from the rows as they were when it got hold of them. -/
theorem result_of_previewed {mid : List TurnStep} {hold page : TurnStep} {q : PreviewRequest}
    {r : WebpageChunks} (hsound : hold.before.Sound)
    (hhold : Floor.Runs opens hold.before hold.call hold.answer hold.after)
    (hmid : Trace (Floor.Runs opens) hold.after mid page.before)
    (hpage : Floor.Runs opens page.before page.call page.answer page.after)
    (h : Previewed hold page q r) :
    ∃ v rows, viewOf hold.before.db q.documentId = some v ∧ v.document.userId = q.userId ∧
      Pages (fun c : DocumentChunk => c.seq) q.offset q.limit v.chunks rows ∧
      q.result v.chunks.length rows = .ok (some r) := by
  obtain ⟨i, total, hholds, hsilent, hat, hpages, hcounted, hanswer⟩ := h
  have hsound' : hold.after.Sound := hsound.step hhold
  rw [hholds, hsilent] at hhold
  rw [hpages, hanswer] at hpage
  obtain ⟨_, ⟨document, webpage⟩, hat', hselect, hafter⟩ := runs_holds hhold
  rw [hat] at hat'
  cases hat'
  obtain ⟨howner, hview⟩ := select_eq_some_iff.mp hselect
  -- the preview still reads them when it pages
  have hinit : ReadsSince hold.after i q hold.after := by
    refine .inr ⟨.holding, ?_, rfl, .inl rfl⟩
    rw [hafter]
    exact hold.before.put_self i _
  have hboth : page.before.Sound ∧ ReadsSince hold.after i q page.before :=
    hmid.invariant (I := fun s => s.Sound ∧ ReadsSince hold.after i q s) ⟨hsound', hinit⟩
      (fun hI hstep => ⟨hI.1.step hstep, hI.2.step hI.1 hstep⟩)
  have hdb : hold.after.db = hold.before.db := by rw [hafter, Floor.put_db]
  rcases hboth.2 with hended | ⟨progress, hat', hview', hprogress⟩
  · rw [hcounted] at hended
    cases hended
  rw [hcounted] at hat'
  cases hat'
  rw [hdb] at hview' hprogress
  rw [hview] at hview'
  have hcount : total = (hold.before.db.chunksOf q.documentId).length := by
    simpa using hprogress
  obtain ⟨_, _, rows, hat'', hrows, hresult⟩ := runs_pages hpage
  rw [hcounted] at hat''
  cases hat''
  refine ⟨_, rows, hview, howner, ?_, ?_⟩
  · rw [(viewOf_eq_some_iff.mp hview').2.2] at hrows
    exact hrows
  · rw [hresult, hcount]

/-- A preview that holds its rows after a turn held them before, or got hold of them now. -/
theorem holding_step {s' : Floor} {turn : Turn} {answer : Response} {i : Nat}
    {q : PreviewRequest} {progress : Progress} (h : Floor.Runs opens s turn answer s')
    (hat : s'.sessions i = .reading q progress)
    (hprogress : progress = .holding ∨ ∃ total, progress = .counted total) :
    (∃ earlier, s.sessions i = .reading q earlier ∧
        (earlier = .holding ∨ ∃ total, earlier = .counted total)) ∨
      turn = .holds i ∧ answer = .silent ∧ s.sessions i = .reading q .admitted := by
  have hother : ∀ {j : Nat} {session : Session}, (s.put j session).sessions i = .reading q progress →
      (∀ q' progress', session = .reading q' progress' → progress' = .started ∨
        progress' = .admitted) → s.sessions i = .reading q progress := by
    intro j session hj hsession
    rw [Floor.put_sessions] at hj
    split at hj
    · rcases hsession q progress hj with rfl | rfl <;> simp at hprogress
    · exact hj
  cases h with
  | acted => exact .inl ⟨_, hat, hprogress⟩
  | opened => exact .inl ⟨_, hother hat (fun _ _ hq => (by cases hq; exact .inl rfl)), hprogress⟩
  | admitted => exact .inl ⟨_, hother hat (fun _ _ hq => (by cases hq; exact .inr rfl)), hprogress⟩
  | @held j q' rows hat' =>
      rw [Floor.put_sessions] at hat
      split at hat
      · next hij =>
          subst hij
          cases hat
          exact .inr ⟨rfl, rfl, hat'⟩
      · exact .inl ⟨_, hat, hprogress⟩
  | @counted j q' hat' =>
      rw [Floor.put_sessions] at hat
      split at hat
      · next hij =>
          subst hij
          cases hat
          exact .inl ⟨_, hat', .inl rfl⟩
      · exact .inl ⟨_, hat, hprogress⟩
  | _ => exact .inl ⟨_, hother hat (fun _ _ hq => (by cases hq)), hprogress⟩

/-- A preview that holds its rows got hold of them earlier in the run. -/
theorem exists_hold (hunopened : ∀ i, start.sessions i = .unopened)
    (h : Trace (Floor.Runs opens) start steps s) {i : Nat} {q : PreviewRequest}
    {progress : Progress} (hat : s.sessions i = .reading q progress)
    (hprogress : progress = .holding ∨ ∃ total, progress = .counted total) :
    ∃ earlier hold mid, steps = earlier ++ hold :: mid ∧ hold.call = .holds i ∧
      hold.answer = .silent ∧ hold.before.sessions i = .reading q .admitted := by
  induction h generalizing progress with
  | nil =>
      rw [hunopened i] at hat
      cases hat
  | @snoc _ _ _ _ _ hinit hstep ih =>
      rcases holding_step hstep hat hprogress with ⟨_, hat', hprogress'⟩ | ⟨rfl, rfl, hat'⟩
      · obtain ⟨earlier, hold, mid, rfl, hholds⟩ := ih hat' hprogress'
        exact ⟨earlier, hold, mid ++ [⟨_, _, _, _⟩], by rw [List.append_assoc]; rfl, hholds⟩
      · exact ⟨_, ⟨_, _, _, _⟩, [], rfl, rfl, rfl, hat'⟩

/-- Every preview works with the key material of the run. -/
theorem served_step {s' : Floor} {turn : Turn} {answer : Response}
    (h : Floor.Runs opens s turn answer s')
    (hs : ∀ i q progress, s.sessions i = .reading q progress → q.cipher.Uses opens) :
    ∀ i q progress, s'.sessions i = .reading q progress → q.cipher.Uses opens := by
  have hput : ∀ {j : Nat} {session : Session},
      (∀ q progress, session = .reading q progress → q.cipher.Uses opens) →
      ∀ i q progress, (s.put j session).sessions i = .reading q progress → q.cipher.Uses opens := by
    intro j session hsession i q progress hi
    rw [Floor.put_sessions] at hi
    split at hi
    · exact hsession q progress hi
    · exact hs i q progress hi
  cases h with
  | acted => exact hs
  | opened _ huses => exact hput (fun _ _ hq => (by cases hq; exact huses))
  | admitted hat => exact hput (fun _ _ hq => (by cases hq; exact hs _ _ _ hat))
  | held hat => exact hput (fun _ _ hq => (by cases hq; exact hs _ _ _ hat))
  | counted hat => exact hput (fun _ _ hq => (by cases hq; exact hs _ _ _ hat))
  | _ => exact hput (fun _ _ hq => (by cases hq))

/-! ## The versions of a run -/

/-- A turn commits a transaction, or changes no row. -/
theorem event_of_runs {s' : Floor} {turn : Turn} {answer : Response}
    (h : Floor.Runs opens s turn answer s') :
    (eventOf ⟨s, turn, answer, s'⟩ = none ∧ s'.db = s.db) ∨
      ∃ e a, eventOf ⟨s, turn, answer, s'⟩ = some ⟨s.db, e, a, s'.db⟩ ∧ e.Distinct ∧
        e.Runs opens s.db a s'.db := by
  cases h with
  | committed _ hdistinct hruns => exact .inr ⟨_, _, rfl, hdistinct, hruns⟩
  | acted _ hdistinct hruns => exact .inr ⟨_, _, rfl, hdistinct, hruns⟩
  | _ => exact .inl ⟨rfl, rfl⟩

theorem methodAt_of_event {st : TurnStep} {db db' : Database} {c : WebpageCall} {a : WebpageAnswer}
    (h : eventOf st = some ⟨db, .call c, a, db'⟩) :
    methodAt st = some ⟨db, .call c, a, db'⟩ := by
  rw [methodAt, h]
  rfl

theorem methods_snoc (steps : List TurnStep) (st : TurnStep) :
    methods (steps ++ [st]) = methods steps ++ (methodAt st).toList := by
  rw [methods, List.filterMap_append, methods]
  cases h : methodAt st with
  | none => rw [List.filterMap_cons_none h]; rfl
  | some m => rw [List.filterMap_cons_some h]; rfl

/-- What a run keeps: its documents are settled, and what was published holds. -/
structure Published (opens : Opens) (recorded : List MethodStep) (db : Database) : Prop where
  settled : Everywhere (PageView.Settled opens) db
  publications : PublicationsHold opens recorded db
  distinct : ∀ m ∈ recorded, ∀ id content contentHash chunks embeddings,
    Publishes m id content contentHash (some chunks) embeddings → (chunks.map (·.seq)).Nodup

/-- A deletion or a fence publishes nothing and changes no view but the deleted one. -/
theorem publications_quiet {steps : List MethodStep} {db db' : Database}
    (h : PublicationsHold opens steps db)
    (hviews : ∀ id v, viewOf db' id = some v → viewOf db id = some v) :
    PublicationsHold opens steps db' :=
  fun id v hv => h id v (hviews id v hv)

/-- Every turn keeps what is known of the versions: the chunks that are there are those of the last
publication. -/
theorem Published.step {s' : Floor} {turn : Turn} {answer : Response}
    (h : Floor.Runs opens s turn answer s') (hs : Published opens (methods steps) s.db) :
    Published opens (methods (steps ++ [⟨s, turn, answer, s'⟩])) s'.db := by
  obtain ⟨hsettled, hpublications, hnodup⟩ := hs
  rcases event_of_runs h with ⟨hnone, hdb⟩ | ⟨e, a, hevent, hdistinct, hruns⟩
  · have hmethods : methods (steps ++ [⟨s, turn, answer, s'⟩]) = methods steps := by
      rw [methods_snoc, methodAt, hnone, Option.bind_none, Option.toList_none, List.append_nil]
    rw [hdb, hmethods]
    exact ⟨hsettled, hpublications, hnodup⟩
  have hsettled' : Everywhere (PageView.Settled opens) s'.db := by
    rcases hruns.cases with ⟨hviews, _⟩ | ⟨id, move, _, hmove⟩
    · exact fun id v hv => hsettled id v (hviews id ▸ hv)
    · exact hmove.everywhere (fun _ hv => hv.settled) (fun _ _ _ => settled_step) hsettled
  have hmethods := methods_snoc steps ⟨s, turn, answer, s'⟩
  rw [methodAt, hevent, Option.bind_some] at hmethods
  cases e with
  | call c =>
      rw [hmethods]
      refine ⟨hsettled', ?_, ?_⟩
      · exact publications_step hpublications ⟨hruns.1 c rfl, hruns.2⟩
      · intro m hm id content contentHash chunks embeddings hpublishes
        rcases List.mem_append.mp hm with hm | hm
        · exact hnodup m hm id content contentHash chunks embeddings hpublishes
        · simp only [methodOf, Option.toList_some, List.mem_singleton] at hm
          subst hm
          cases hpublishes
          exact hdistinct _ _ _ _ _ _ _ _ rfl
  | deleteDocument documentId userId =>
      simp only [methodOf, Option.toList_none, List.append_nil] at hmethods
      rw [hmethods]
      refine ⟨hsettled', publications_quiet hpublications fun id v hv => ?_, hnodup⟩
      rcases hruns.cases with ⟨hviews, _⟩ | ⟨target, move, hdoes, hmove⟩
      · rwa [hviews] at hv
      · by_cases hid : id = target
        · subst hid
          cases hdoes with
          | deleteDocument =>
              have hrows := hmove.rows
              rw [hv] at hrows
              generalize viewOf s.db documentId = before at hrows
              cases hrows
        · rwa [hmove.others id hid] at hv
  | fence userId =>
      simp only [methodOf, Option.toList_none, List.append_nil] at hmethods
      rw [hmethods]
      refine ⟨hsettled', publications_quiet hpublications fun id v hv => ?_, hnodup⟩
      rcases hruns.cases with ⟨hviews, _⟩ | ⟨target, move, hdoes, hmove⟩
      · rwa [hviews] at hv
      · cases hdoes

theorem Published.of_noWebpages {db : Database} (h : db.webpages.rows = []) :
    Published opens (methods []) db where
  settled := Everywhere.of_noWebpages h
  publications := fun id v hv => (Everywhere.of_noWebpages (I := fun _ => False) h id v hv).elim
  distinct := fun _ hm => (by cases hm)

/-- The version of a document that is there, with rows that stand for it. -/
theorem Published.version {db : Database} (h : Published opens (methods steps) db) {id : Uuid}
    {v : PageView} (hv : viewOf db id = some v) :
    ∃ chunks embeddings, Version opens steps db id chunks ∧ (chunks.map (·.seq)).Nodup ∧
      RowsStand opens v.document.userId.str id chunks embeddings v.chunks := by
  by_cases hhash : v.page.contentHash = none
  · obtain ⟨_, _, hchunks⟩ := (h.settled id v hv).unpublished hhash
    refine ⟨[], [], ⟨v, hv, .inl ⟨hhash, hchunks, rfl⟩⟩, List.nodup_nil, rfl, ?_⟩
    rw [hchunks]
    exact .nil
  · obtain ⟨args, hlast, hholds⟩ := h.publications id v hv hhash
    refine ⟨args.chunks, args.embeddings, ⟨v, hv, .inr ⟨args, hlast, hholds, rfl⟩⟩, ?_, ?_⟩
    · obtain ⟨earlier, last, later, hsteps, hpublishes, _⟩ := hlast
      refine h.distinct last ?_ _ _ _ _ _ hpublishes
      rw [hsteps]
      exact List.mem_append_right _ List.mem_cons_self
    · have hid : v.document.id = id := viewOf_document_id hv
      rw [← hid]
      exact hholds.chunks

/-- What a row of a version reads as. -/
theorem source_of_read {cipher : PrivateDataCipher} (huses : cipher.Uses opens)
    {userId documentId : Uuid} {chunk : IngestChunk} {row : DocumentChunk} {c : WebpageChunk}
    {embedding : Embedding} (hrow : RowStands opens userId.str documentId (chunk, embedding) row)
    (h : readWebpageChunk cipher.privateData userId documentId row = .ok c) :
    c.source = chunkSource chunk := by
  obtain ⟨text, htext, h⟩ := bind_eq_ok.mp h
  obtain ⟨metadata, hmetadata, h⟩ := bind_eq_ok.mp h
  obtain ⟨url, hurl, h⟩ := bind_eq_ok.mp h
  cases pure_eq_ok.mp h
  have hseq : row.seq = chunk.seq := hrow.seq
  rw [hseq] at htext hmetadata
  have htext' : text = chunk.text := (readText_stands huses htext).unique hrow.text
  have hmetadata' : metadata = chunk.metadata := (readJson_stands huses hmetadata).unique hrow.metadata
  rw [WebpageChunk.source, chunkSource, hseq, htext', ← hmetadata', hurl]

/-- A result read from the rows of a version shows it: the total, and the asked slice in the order
of `seq`, in the clear. -/
theorem shows_of_result {q : PreviewRequest} {r : WebpageChunks} (huses : q.cipher.Uses opens)
    {chunks : List IngestChunk} {embeddings : List Embedding} {stored rows : List DocumentChunk}
    (hstand : RowsStand opens q.userId.str q.documentId chunks embeddings stored)
    (hdistinct : (chunks.map (·.seq)).Nodup)
    (hpages : Pages (fun c : DocumentChunk => c.seq) q.offset q.limit stored rows)
    (h : q.result stored.length rows = .ok (some r)) : r.Shows q chunks := by
  obtain ⟨read, hread, hr⟩ := map_eq_ok.mp h
  cases hr
  let Place := fun (chunk : IngestChunk) (row : DocumentChunk) => ∃ embedding,
    RowStands opens q.userId.str q.documentId (chunk, embedding) row
  have hplaces : List.Forall₂ Place chunks stored := by
    rw [← List.map_fst_zip (le_of_eq hstand.1)]
    exact List.forall₂_map_left_iff.mpr (hstand.2.imp fun z row hz => ⟨z.2, hz⟩)
  have hseqs : List.Forall₂ Eq (chunks.map (fun c : IngestChunk => c.seq))
      (stored.map (fun c : DocumentChunk => c.seq)) := by
    refine List.forall₂_map_left_iff.mpr (List.forall₂_map_right_iff.mpr ?_)
    exact hplaces.imp (fun chunk row ⟨_, hrow⟩ => hrow.seq.symm)
  have hkeys : (stored.map (fun c : DocumentChunk => c.seq)).Nodup :=
    eq_of_forall₂_eq hseqs ▸ hdistinct
  have hsorted : List.Forall₂ Place (sortedBy (fun c : IngestChunk => c.seq) chunks)
      (sortedBy (fun c : DocumentChunk => c.seq) stored) :=
    forall₂_sortedBy hplaces (fun chunk row ⟨_, hrow⟩ => hrow.seq.symm)
  have hslice := List.forall₂_take q.limit (List.forall₂_drop q.offset hsorted)
  rw [← hpages.eq hkeys] at hslice
  refine ⟨rfl, hstand.length_eq, ?_⟩
  have hsources : List.Forall₂ (fun chunk c => WebpageChunk.source c = chunkSource chunk)
      (((sortedBy (fun c : IngestChunk => c.seq) chunks).drop q.offset).take q.limit) read :=
    Forall₂.comp_mapM (fun chunk row c ⟨_, hrow⟩ hc => source_of_read huses hrow hc) hslice hread
  refine eq_of_forall₂_eq (List.forall₂_map_left_iff.mpr (List.forall₂_map_right_iff.mpr ?_))
  exact hsources.flip

/-! ## Whole runs -/

/-- What holds on every floor of a run. -/
structure Standing (opens : Opens) (steps : List TurnStep) (s : Floor) : Prop where
  sound : s.Sound
  served : ∀ i q progress, s.sessions i = .reading q progress → q.cipher.Uses opens
  published : Published opens (methods steps) s.db

theorem standing (hstart : start.db.webpages.rows = [])
    (hunopened : ∀ i, start.sessions i = .unopened)
    (h : Trace (Floor.Runs opens) start steps s) : Standing opens steps s := by
  induction h with
  | nil =>
      refine ⟨.of_unopened hunopened, fun i q progress hi => ?_, .of_noWebpages hstart⟩
      rw [hunopened i] at hi
      cases hi
  | snoc _ hstep ih =>
      exact ⟨ih.sound.step hstep, served_step hstep ih.served, ih.published.step hstep⟩

/-- What a document shows of its version, and whose it is. -/
def SameVersion (v v' : PageView) : Prop :=
  v'.page.contentHash = v.page.contentHash ∧ v'.chunks = v.chunks ∧
    v'.document.userId = v.document.userId

/-- Without publications and registrations a document keeps its version while it is there. -/
theorem version_kept {id : Uuid} (h : Trace (Floor.Runs opens) m steps s)
    (hquiet : ∀ st ∈ steps, LeavesVersion st id) :
    ∀ v', viewOf s.db id = some v' → ∃ v, viewOf m.db id = some v ∧ SameVersion v v' := by
  refine h.holds_through (P := fun s => ∀ v', viewOf s.db id = some v' →
    ∃ v, viewOf m.db id = some v ∧ SameVersion v v') (fun v hv => ⟨v, hv, rfl, rfl, rfl⟩) ?_
  intro st hst hruns hbefore v' hv'
  obtain ⟨hregisters, hpublishes⟩ := hquiet st hst
  obtain ⟨before, turn, answer, after⟩ := st
  rcases event_of_runs hruns with ⟨_, hdb⟩ | ⟨e, a, hevent, _, hexec⟩
  · rw [hdb] at hv'
    exact hbefore v' hv'
  rcases hexec.cases with ⟨hviews, _⟩ | ⟨target, move, hdoes, hmove⟩
  · rw [hviews] at hv'
    exact hbefore v' hv'
  by_cases hid : id = target
  · subst hid
    have hrows := hmove.rows
    rw [hv'] at hrows
    cases hv : viewOf before.db id with
    | none =>
        rw [hv] at hrows
        generalize hnew : some v' = new at hrows
        cases hrows
        cases hdoes with
        | call hcall =>
            cases hcall with
            | create =>
                exact (hregisters _ hevent ⟨_, _, _, _, _, _, _, _, _, rfl, rfl⟩).elim
    | some v =>
        rw [hv] at hrows
        have hunpublished : ∀ token args, move ≠ .published token args := by
          rintro token args rfl
          cases hdoes with
          | call hcall =>
              cases hcall with
              | published =>
                  refine hpublishes _ (methodAt_of_event hevent) _ _ _ _ (.finish ?_)
                  cases hrows with
                  | published _ hchanged => simpa [storedHash, hv] using hchanged
        obtain ⟨hhash, _, hchunks, _, howner⟩ := unpublished_step hrows hunpublished
        obtain ⟨v₀, hv₀, hhash₀, hchunks₀, howner₀⟩ := hbefore v hv
        exact ⟨v₀, hv₀, hhash.trans hhash₀, hchunks.trans hchunks₀, howner.trans howner₀⟩
  · rw [hmove.others id hid] at hv'
    exact hbefore v' hv'

/-- A preview shows the version that its document had at the start of a stretch in which
nothing was published before the preview got hold of its rows. -/
theorem shows_of_previewed {before first mid last : List TurnStep} {hold page : TurnStep}
    {q : PreviewRequest} {r : WebpageChunks} (hm : Standing opens before m)
    (h : Trace (Floor.Runs opens) m (first ++ hold :: (mid ++ page :: last)) s)
    (hquiet : ∀ st ∈ first, LeavesVersion st q.documentId) (hpreviewed : Previewed hold page q r) :
    ∃ v, viewOf m.db q.documentId = some v ∧
      ∀ chunks embeddings, (chunks.map (·.seq)).Nodup →
        RowsStand opens v.document.userId.str q.documentId chunks embeddings v.chunks →
        r.Shows q chunks := by
  obtain ⟨hfirst, hhold, hrest⟩ := h.split_at
  obtain ⟨hmid, hpage, _⟩ := hrest.split_at
  have hbefore : hold.before.Sound ∧
      ∀ i q progress, hold.before.sessions i = .reading q progress → q.cipher.Uses opens :=
    hfirst.invariant (I := fun s => s.Sound ∧
      ∀ i q progress, s.sessions i = .reading q progress → q.cipher.Uses opens)
      ⟨hm.sound, hm.served⟩ (fun hI hstep => ⟨hI.1.step hstep, served_step hstep hI.2⟩)
  obtain ⟨v', rows, hv', howner', hpages, hresult⟩ :=
    result_of_previewed hbefore.1 hhold hmid hpage hpreviewed
  obtain ⟨v, hv, _, hchunks, howner⟩ := version_kept hfirst hquiet v' hv'
  obtain ⟨i, total, -, -, hat, -⟩ := hpreviewed
  refine ⟨v, hv, fun chunks embeddings hdistinct hstand => ?_⟩
  rw [hchunks] at hpages hresult
  rw [← howner, howner'] at hstand
  exact shows_of_result (hbefore.2 i q _ hat) hstand hdistinct hpages hresult

/-- The chunks of successive previews of one version are a slice of it. -/
theorem chunks_of_successive {chunks : List IngestChunk} {offset : Nat}
    {pages : List (PreviewRequest × WebpageChunks)} (hshows : ∀ p ∈ pages, p.2.Shows p.1 chunks)
    (hoffsets : Successive offset (pages.map (fun p => (p.1.offset, p.1.limit)))) :
    (pages.flatMap (fun p => p.2.chunks)).map WebpageChunk.source =
      (((sortedBy (fun c : IngestChunk => c.seq) chunks).drop offset).take
        (pages.map (fun p => p.1.limit)).sum).map chunkSource := by
  have hslices := flatMap_slices hoffsets (sortedBy (fun c : IngestChunk => c.seq) chunks)
  rw [List.map_map, List.flatMap_map] at hslices
  calc (pages.flatMap (fun p => p.2.chunks)).map WebpageChunk.source
      = pages.flatMap (fun p => p.2.chunks.map WebpageChunk.source) := List.map_flatMap
    _ = pages.flatMap (fun p => (((sortedBy (fun c : IngestChunk => c.seq) chunks).drop
          p.1.offset).take p.1.limit).map chunkSource) :=
        List.flatMap_congr fun p hp => (hshows p hp).chunks
    _ = (pages.flatMap (fun p => ((sortedBy (fun c : IngestChunk => c.seq) chunks).drop
          p.1.offset).take p.1.limit)).map chunkSource := List.map_flatMap.symm
    _ = _ := by rw [hslices]; rfl

end Runs

/-- In every run from a start without webpage documents: what a preview returns is the total
and the asked slice, in the order of `seq`, of the version that the document had when the
preview got hold of its rows; and previews that ask for successive slices, while nothing is
published or registered under the identifier, return together that slice of the version that
they make up, all of it where they cover it. -/
theorem previews_of_one_version {opens : Opens} {start : Floor}
    (hstart : start.db.webpages.rows = []) (hunopened : ∀ i, start.sessions i = .unopened) :
    (∀ first page rest s r, Trace (Floor.Runs opens) start (first ++ page :: rest) s →
      page.answer = .preview (.ok (some r)) →
      ∃ q earlier hold mid chunks, first = earlier ++ hold :: mid ∧ Previewed hold page q r ∧
        Version opens earlier hold.before.db q.documentId chunks ∧ r.Shows q chunks) ∧
    (∀ before m window s id offset (pages : List (PreviewRequest × WebpageChunks)),
      Trace (Floor.Runs opens) start before m → Trace (Floor.Runs opens) m window s → pages ≠ [] →
      (∀ st ∈ window, LeavesVersion st id) →
      (∀ p ∈ pages, p.1.documentId = id ∧ PreviewedIn window p.1 p.2) →
      Successive offset (pages.map (fun p => (p.1.offset, p.1.limit))) →
      ∃ chunks, Version opens before m.db id chunks ∧ (∀ p ∈ pages, p.2.Shows p.1 chunks) ∧
        (pages.flatMap (fun p => p.2.chunks)).map WebpageChunk.source =
          (((sortedBy (fun c : IngestChunk => c.seq) chunks).drop offset).take
            (pages.map (fun p => p.1.limit)).sum).map chunkSource ∧
        (offset = 0 → chunks.length ≤ (pages.map (fun p => p.1.limit)).sum →
          (pages.flatMap (fun p => p.2.chunks)).map WebpageChunk.source =
            (sortedBy (fun c : IngestChunk => c.seq) chunks).map chunkSource)) := by
  constructor
  · intro first page rest s r h hanswer
    obtain ⟨hfirst, hpage, hrest⟩ := h.split_at
    have hpage' := hpage
    rw [hanswer] at hpage'
    obtain ⟨i, q, total, hpages, hat⟩ := runs_preview hpage'
    obtain ⟨earlier, hold, mid, rfl, hholds, hsilent, hadmitted⟩ :=
      exists_hold hunopened hfirst hat (.inr ⟨total, rfl⟩)
    have hpreviewed : Previewed hold page q r :=
      ⟨i, total, hholds, hsilent, hadmitted, hpages, hat, hanswer⟩
    rw [List.append_assoc] at h
    obtain ⟨m, hearlier, hstretch⟩ := h.split
    have hm := standing hstart hunopened hearlier
    have hstretch' : Trace (Floor.Runs opens) m ([] ++ hold :: (mid ++ page :: rest)) s := hstretch
    have hmid : m = hold.before := hstretch'.split_at.1.eq_of_nil
    obtain ⟨v, hv, hshows⟩ := shows_of_previewed hm hstretch' (by simp) hpreviewed
    obtain ⟨chunks, embeddings, hversion, hdistinct, hstand⟩ := hm.published.version hv
    exact ⟨q, earlier, hold, mid, chunks, rfl, hpreviewed, hmid ▸ hversion,
      hshows chunks embeddings hdistinct hstand⟩
  · intro before m window s id offset pages hbefore hwindow hne hquiet hpages hoffsets
    have hm := standing hstart hunopened hbefore
    have hall : ∀ p ∈ pages, ∃ v, viewOf m.db id = some v ∧
        ∀ chunks embeddings, (chunks.map (·.seq)).Nodup →
          RowsStand opens v.document.userId.str id chunks embeddings v.chunks →
          p.2.Shows p.1 chunks := by
      intro p hp
      obtain ⟨rfl, first, hold, mid, page, last, rfl, hpreviewed⟩ := hpages p hp
      exact shows_of_previewed hm hwindow
        (fun st hst => hquiet st (List.mem_append_left _ hst)) hpreviewed
    obtain ⟨p₀, hp₀⟩ := List.exists_mem_of_ne_nil pages hne
    obtain ⟨v, hv, -⟩ := hall p₀ hp₀
    obtain ⟨chunks, embeddings, hversion, hdistinct, hstand⟩ := hm.published.version hv
    have hshows : ∀ p ∈ pages, p.2.Shows p.1 chunks := by
      intro p hp
      obtain ⟨v', hv', hshows⟩ := hall p hp
      rw [hv] at hv'
      cases hv'
      exact hshows chunks embeddings hdistinct hstand
    have hslice := chunks_of_successive hshows hoffsets
    refine ⟨chunks, hversion, hshows, hslice, fun hzero hcover => ?_⟩
    rw [hslice, hzero, List.drop_zero, List.take_of_length_le]
    rw [(sortedBy_perm _ chunks).length_eq]
    exact hcover

/-! ## What the worker publishes -/

/-- The worker numbers the chunks of a publication, so they carry different numbers. -/
theorem distinct_of_syncClaim {sha256 : String → String} {cipher : PrivateDataCipher}
    {env : SyncEnv} {claim : WebpageClaim} {sync : Sync}
    (h : syncClaim sha256 cipher env claim = .ok (some sync)) (uuid4 : Nat → Uuid) (now : Time) :
    WebpageEvent.Distinct (.call (.finish cipher uuid4 now claim sync.content sync.contentHash
      sync.chunks sync.embeddings)) := by
  intro _ _ _ _ _ _ chunks _ hcall
  injection hcall with hcall
  injection hcall with _ _ _ _ _ _ hchunks
  obtain ⟨-, -, -, ⟨hnone, -⟩ | hcut⟩ := syncClaim_ok h
  · rw [hnone] at hchunks
    cases hchunks
  · rw [hcut] at hchunks
    cases hchunks
    have hseqs : (pageChunks claim.urls sync.pages).map (fun c : IngestChunk => c.seq) =
        ((((claim.urls.zip sync.pages).flatMap
          (fun z => (windows z.2.text).map (fun w => (z.1, z.2, w)))).zipIdx).map Prod.snd).map
            (fun n : Nat => (n : Int)) := by
      rw [pageChunks_eq, List.map_map, List.map_map]
      rfl
    rw [hseqs, List.zipIdx_map_snd]
    exact List.Nodup.map Int.ofNat_injective List.nodup_range'

/-- What a sync computes, the transaction that holds the row of its document can always commit. -/
theorem commits_of_syncClaim {opens : Opens} {s : Floor} {i : Nat} {id : Uuid}
    {sha256 : String → String} {cipher : PrivateDataCipher} (huses : cipher.Uses opens)
    {env : SyncEnv} {claim : WebpageClaim} {sync : Sync}
    (h : syncClaim sha256 cipher env claim = .ok (some sync)) (uuid4 : Nat → Uuid) (now : Time)
    {e : WebpageEvent} (hfinish : e = .call (.finish cipher uuid4 now claim sync.content
      sync.contentHash sync.chunks sync.embeddings)) (hat : s.sessions i = .writing e id) :
    Floor.Runs opens s (.commits i e) (.written (e.exec s.db).1)
      { s.put i .ended with db := (e.exec s.db).2 } := by
  subst hfinish
  refine .committed hat (distinct_of_syncClaim h uuid4 now) ⟨fun c hc => ?_, rfl⟩
  cases hc
  exact huses

/-! ## A sample run -/

/-- Nobody has come yet. -/
def sampleFloor : Floor := ⟨.empty, fun _ => .unopened⟩

/-- The owner of the sample document asks for its first five chunks. -/
def sampleRequest : PreviewRequest := ⟨clearCipher, 7, 1, 0, 5⟩

/-- The sample calls as transactions. -/
def sampleEvent (n : Fin 3) : WebpageEvent := .call (sampleCalls.get n)

theorem sampleEvent_runs (n : Fin 3) :
    (sampleEvent n).Runs clearOpens (sampleRun n).2 ((sampleEvent n).exec (sampleRun n).2).1
      (sampleRun (n + 1)).2 := by
  refine ⟨fun c hc => ?_, ?_⟩
  · cases hc
    exact sampleCalls_uses (List.get_mem _ _)
  · match n with
    | 0 => rfl
    | 1 => rfl
    | 2 => rfl

theorem sampleEvent_distinct (n : Fin 3) : (sampleEvent n).Distinct := by
  intro cipher uuid4 now claim content contentHash chunks embeddings h
  match n with
  | 0 => cases h
  | 1 => cases h
  | 2 => cases h; decide

/-- Nobody holds a row. -/
def Floor.Free (s : Floor) : Prop := ∀ i, (s.sessions i).held = none

theorem Floor.Free.grants {s : Floor} (h : s.Free) (i : Nat) (mode : LockMode) (id : Uuid) :
    s.locks.Grants i mode id := by
  intro j other _ hheld
  have hnone : s.locks.held j = none := h j
  rw [hnone] at hheld
  cases hheld

theorem Floor.Free.put {s : Floor} (h : s.Free) {i : Nat} {session : Session}
    (hsession : session.held = none) : (s.put i session).Free := by
  intro j
  rw [Floor.put_sessions]
  split
  · exact hsession
  · exact h j

section Alone

variable {opens : Opens} {start s : Floor} {steps : List TurnStep} {i : Nat}

/-- On a free floor a transaction can lock its row and commit. -/
theorem trace_commit (h : Trace (Floor.Runs opens) start steps s) (hfree : s.Free)
    (hfresh : s.sessions i = .unopened) {e : WebpageEvent} {id : Uuid} {a : WebpageAnswer}
    {db' : Database} (hrow : e.lockedRow s.db = some id) (hdistinct : e.Distinct)
    (hruns : e.Runs opens s.db a db') :
    ∃ steps', Trace (Floor.Runs opens) start steps' { s.put i .ended with db := db' } := by
  have hput : (s.put i (.writing e id)).put i .ended = s.put i .ended := by
    rw [Floor.put, Floor.put, Floor.put, Function.update_idem]
  have hlocked := Trace.snoc h (.locked hfresh hrow (hfree.grants i .update id))
  have hcommitted := Trace.snoc hlocked (.committed (s.put_self i _) hdistinct hruns)
  rw [hput] at hcommitted
  exact ⟨_, hcommitted⟩

/-- On a free floor a preview can run to its end. -/
theorem trace_preview (h : Trace (Floor.Runs opens) start steps s) (hfree : s.Free)
    (hfresh : s.sessions i = .unopened) {q : PreviewRequest} (huses : q.cipher.Uses opens)
    (hactive : lockActiveOwner s.db q.userId = .ok ()) {rows : Document × DocumentWebpage}
    (hselect : select s.db q.documentId q.userId = some rows) {page : List DocumentChunk}
    (hpages : Pages (fun c : DocumentChunk => c.seq) q.offset q.limit
      (s.db.chunksOf q.documentId) page) :
    ∃ first last s', Trace (Floor.Runs opens) start (first ++ [last]) s' ∧
      last.answer = .preview (q.result (s.db.chunksOf q.documentId).length page) := by
  have hopened := Trace.snoc h (.opened hfresh huses)
  have hadmitted := Trace.snoc hopened (.admitted (s.put_self i _) hactive)
  have hquiet : ((s.put i (.reading q .started)).put i (.reading q .admitted)).Free :=
    (hfree.put rfl).put rfl
  have hheld := Trace.snoc hadmitted
    (.held (Floor.put_self _ i _) hselect (hquiet.grants i .share q.documentId))
  have hcounted := Trace.snoc hheld (.counted (Floor.put_self _ i _))
  have hpaged := Trace.snoc hcounted (.paged (Floor.put_self _ i _) hpages)
  exact ⟨_, _, _, hpaged, rfl⟩

end Alone

/-- The rows that the sample preview reads. -/
def sampleRows : List DocumentChunk := ((sampleRun 3).2.chunksOf 7).take 5

/-- The document of the sample run is published, and then previewed. -/
theorem sampleFloor_trace : ∃ first page s r,
    Trace (Floor.Runs clearOpens) sampleFloor (first ++ [page]) s ∧
      page.answer = .preview (.ok (some r)) ∧ r.chunks.length = 1 := by
  have hcreate : Floor.Runs clearOpens sampleFloor (.acts (sampleEvent 0)) (.written _)
      { sampleFloor with db := (sampleRun 1).2 } :=
    .acted (by decide +kernel) (sampleEvent_distinct 0) (sampleEvent_runs 0)
  have hclaim : (sampleEvent 1).lockedRow (sampleRun 1).2 = some 7 := by decide +kernel
  have hfinish : (sampleEvent 2).lockedRow (sampleRun 2).2 = some 7 := by decide +kernel
  have hempty : Floor.Free { sampleFloor with db := (sampleRun 1).2 } := fun _ => rfl
  obtain ⟨_, hclaimed⟩ := trace_commit (i := 0) (.snoc (.nil sampleFloor) hcreate) hempty rfl
    hclaim (sampleEvent_distinct 1) (sampleEvent_runs 1)
  have hfree : Floor.Free { Floor.put { sampleFloor with db := (sampleRun 1).2 } 0 .ended with
      db := (sampleRun 2).2 } := hempty.put rfl
  obtain ⟨_, hfinished⟩ := trace_commit (i := 1) hclaimed hfree rfl
    hfinish (sampleEvent_distinct 2) (sampleEvent_runs 2)
  have hselect : ((select (sampleRun 3).2 7 1).map (fun _ => ())) = some () := by decide +kernel
  obtain ⟨rows, hrows, -⟩ := Option.map_eq_some_iff.mp hselect
  have hpages : Pages (fun c : DocumentChunk => c.seq) 0 5 ((sampleRun 3).2.chunksOf 7)
      sampleRows :=
    ⟨_, .refl _, by decide +kernel, rfl⟩
  obtain ⟨first, last, s, htrace, hanswer⟩ := trace_preview (q := sampleRequest) (i := 2)
    hfinished (hfree.put rfl) rfl clearCipher_uses (by decide +kernel) hrows hpages
  have hresult : ((sampleRequest.result ((sampleRun 3).2.chunksOf 7).length sampleRows).toOption.bind
      (fun r => r.map (fun r => r.chunks.length))) = some 1 := by decide +kernel
  obtain ⟨result, hok, hlength⟩ := Option.bind_eq_some_iff.mp hresult
  obtain ⟨r, rfl, hone⟩ := Option.map_eq_some_iff.mp hlength
  refine ⟨first, last, s, r, htrace, hanswer.trans ?_, hone⟩
  cases hanswer' : sampleRequest.result ((sampleRun 3).2.chunksOf 7).length sampleRows with
  | error e =>
      rw [hanswer'] at hok
      cases hok
  | ok result' =>
      rw [hanswer'] at hok
      cases hok
      exact congrArg Response.preview hanswer'

/-- The preview of the sample run shows its publication. -/
theorem previews_of_one_version_sample : ∃ q earlier hold page chunks r,
    Previewed hold page q r ∧ r.chunks.length = 1 ∧
      Version clearOpens earlier hold.before.db q.documentId chunks ∧ r.Shows q chunks := by
  obtain ⟨first, page, s, r, htrace, hanswer, hone⟩ := sampleFloor_trace
  obtain ⟨q, earlier, hold, mid, chunks, -, hpreviewed, hversion, hshows⟩ :=
    (@previews_of_one_version clearOpens sampleFloor rfl (fun _ => rfl)).1
      first page [] s r htrace hanswer
  exact ⟨q, earlier, hold, page, chunks, r, hpreviewed, hone, hversion, hshows⟩

end PortRag.Webpages
