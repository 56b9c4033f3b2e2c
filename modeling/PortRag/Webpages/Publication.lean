import PortRag.Webpages.Runs

set_option autoImplicit false

/-!
# What a webpage document shows

After any run of the repository the stored content, hash and chunks of a document are
together those of its last publication: the last accepted `finish` whose hash differed from
the stored one.
-/

namespace PortRag.Webpages

open PortRag.Foundation PortRag.Db PortRag.Security PortRag.Http PortRag.Ingest

/-- A recorded call of the repository. -/
abbrev MethodStep := Step Database WebpageMethod WebpageAnswer

/-- The stored hash of a document. -/
def storedHash (db : Database) (id : Uuid) : Option String :=
  (viewOf db id).bind (fun v => v.page.contentHash)

/-- `Publishes st id …`: the step is a `finish` for `id` with these arguments that returned
`True` while the stored hash differed from the given one. -/
inductive Publishes : MethodStep → Uuid → String → String → Option (List IngestChunk) →
    Option (List Embedding) → Prop where
  | finish {before after : Database} {cipher : PrivateDataCipher} {uuid4 : Nat → Uuid}
      {now : Time} {claim : WebpageClaim} {content contentHash : String}
      {chunks : Option (List IngestChunk)} {embeddings : Option (List Embedding)}
      (hdiffers : storedHash before claim.documentId ≠ some contentHash) :
      Publishes
        ⟨before, .call (.finish cipher uuid4 now claim content contentHash chunks embeddings),
          .done (.ok true), after⟩
        claim.documentId content contentHash chunks embeddings

/-- The last publication of `id` in a run, with its arguments. -/
def LastPublication (steps : List MethodStep) (id : Uuid) (args : Publication) : Prop :=
  ∃ earlier st later, steps = earlier ++ st :: later ∧
    Publishes st id args.content args.contentHash (some args.chunks) (some args.embeddings) ∧
    ∀ st' ∈ later, ∀ content contentHash chunks embeddings,
      ¬ Publishes st' id content contentHash chunks embeddings

/-- The columns that a failure or a refused call must not touch. -/
def shown (v : PageView) : String × Option String × List DocumentChunk × Option Time :=
  (v.page.content, v.page.contentHash, v.chunks, v.page.lastSyncedAt)

/-- A step that publishes nothing for `id` leaves the last publication in place. -/
theorem LastPublication.snoc {steps : List MethodStep} {id : Uuid} {args : Publication}
    (h : LastPublication steps id args) {st : MethodStep}
    (hst : ∀ content contentHash chunks embeddings,
      ¬ Publishes st id content contentHash chunks embeddings) :
    LastPublication (steps ++ [st]) id args := by
  obtain ⟨earlier, last, later, rfl, hlast, hlater⟩ := h
  refine ⟨earlier, last, later ++ [st], by simp, hlast, ?_⟩
  intro st' hmem
  rcases List.mem_append.mp hmem with hmem | hmem
  · exact hlater st' hmem
  · rw [List.mem_singleton.mp hmem]
    exact hst

/-- A publishing step is the last one of its run. -/
theorem LastPublication.of_publishes {steps : List MethodStep} {id : Uuid} {args : Publication}
    {st : MethodStep} (h : Publishes st id args.content args.contentHash (some args.chunks)
      (some args.embeddings)) : LastPublication (steps ++ [st]) id args :=
  ⟨steps, st, [], rfl, h, by simp⟩

section Runs

variable {opens : Opens} {db db' : Database} {m : WebpageMethod} {a : WebpageAnswer}

/-- What was published holds, before and after a step. -/
def PublicationsHold (opens : Opens) (steps : List MethodStep) (db : Database) : Prop :=
  ∀ id v, viewOf db id = some v → v.page.contentHash ≠ none →
    ∃ args, LastPublication steps id args ∧ v.Holds opens args

/-- Only a publication publishes: a confirming `finish` gave the stored hash. -/
theorem published_of_publishes {c : WebpageCall} {target id : Uuid} {move : Move}
    (hm : m = .call c ∨ ∃ cipher clock uuid4, m = .claim cipher clock uuid4)
    (hdoes : c.Does a target move) (hmove : Moves opens db target move db')
    {content contentHash : String} {chunks : Option (List IngestChunk)}
    {embeddings : Option (List Embedding)}
    (h : Publishes ⟨db, m, a, db'⟩ id content contentHash chunks embeddings) :
    id = target ∧ ∃ token args, move = .published token args := by
  cases h with
  | finish hdiffers =>
      rcases hm with hm | ⟨_, _, _, hm⟩
      · cases hm
        cases hdoes with
        | published => exact ⟨rfl, _, _, rfl⟩
        | confirmed =>
            obtain ⟨v, hv, hsame⟩ := hmove.of_confirmed
            exact absurd (by simp [storedHash, hv, hsame]) hdiffers
      · cases hm

/-- Publications hold after one more step: a successful `finish` is the new last publication, and
every other method leaves what is shown. -/
theorem publications_step {steps : List MethodStep} (h : PublicationsHold opens steps db)
    (hrun : WebpageMethod.Runs opens db m a db') :
    PublicationsHold opens (steps ++ [⟨db, m, a, db'⟩]) db' := by
  have hquiet : ∀ {id : Uuid}, a.accepted = false → ∀ content contentHash chunks embeddings,
      ¬ Publishes ⟨db, m, a, db'⟩ id content contentHash chunks embeddings := by
    intro id ha content contentHash chunks embeddings hpublishes
    cases hpublishes
    cases ha
  rcases hrun.cases with ⟨rfl, ha, _⟩ | ⟨c, hm, huses, hexec⟩
  · intro id v hv hhash
    obtain ⟨args, hlast, hholds⟩ := h id v hv hhash
    exact ⟨args, hlast.snoc (hquiet ha), hholds⟩
  rcases c.step huses hexec with ⟨rfl, ha⟩ | ⟨target, move, hdoes, hmove⟩
  · intro id v hv hhash
    obtain ⟨args, hlast, hholds⟩ := h id v hv hhash
    exact ⟨args, hlast.snoc (hquiet ha), hholds⟩
  have hm' : m = .call c ∨ ∃ cipher clock uuid4, m = .claim cipher clock uuid4 :=
    hm.imp_right (fun ⟨cipher, clock, uuid4, _, _, _, _, h, _⟩ => ⟨cipher, clock, uuid4, h⟩)
  intro id v' hv' hhash
  by_cases hid : id = target
  · subst hid
    have hrows := hmove.rows
    rw [hv'] at hrows
    cases hv : viewOf db id with
    | none =>
        rw [hv] at hrows
        cases hrows with
        | created hnew =>
            rw [hnew.page] at hhash
            exact absurd rfl hhash
    | some v =>
        rw [hv] at hrows
        by_cases hpublished : ∃ token args, move = .published token args
        · obtain ⟨token, args, rfl⟩ := hpublished
          cases hrows with
          | published hheld hchanged hcontent hchunks hholds =>
              refine ⟨args, LastPublication.of_publishes ?_, hholds⟩
              cases hdoes
              rcases hm with rfl | ⟨_, _, _, _, _, _, _, _, hturn⟩
              · exact .finish (by simpa [storedHash, hv] using hchanged)
              · cases hturn
        · have hquiet' : ∀ content contentHash chunks embeddings,
              ¬ Publishes ⟨db, m, a, db'⟩ id content contentHash chunks embeddings :=
            fun _ _ _ _ hp => hpublished (published_of_publishes hm' hdoes hmove hp).2
          have hother : ∀ token new, move ≠ .published token new :=
            fun token new hmove' => hpublished ⟨token, new, hmove'⟩
          rw [(unpublished_step hrows hother).1] at hhash
          obtain ⟨args, hlast, hholds⟩ := h id v hv hhash
          exact ⟨args, hlast.snoc hquiet', holds_step hrows hother hholds⟩
  · rw [hmove.others id hid] at hv'
    obtain ⟨args, hlast, hholds⟩ := h id v' hv' hhash
    refine ⟨args, hlast.snoc ?_, hholds⟩
    exact fun _ _ _ _ hp => hid (published_of_publishes hm' hdoes hmove hp).1

/-- A failed sync leaves what every document shows. -/
theorem shown_fail {c : WebpageCall} {cipher : PrivateDataCipher} {now : Time}
    {claim : WebpageClaim} {error : String} (hc : c = .fail cipher now claim error)
    (huses : c.cipher.Uses opens) (h : c.exec db = (a, db')) (id : Uuid) :
    (viewOf db' id).map shown = (viewOf db id).map shown := by
  rcases c.step huses h with ⟨rfl, _⟩ | ⟨target, move, hdoes, hmove⟩
  · rfl
  subst hc
  cases hdoes
  by_cases hid : id = claim.documentId
  · subst hid
    have hrows := hmove.rows
    generalize viewOf db claim.documentId = before at hrows
    generalize viewOf db' claim.documentId = after at hrows
    cases hrows with
    | failed => unfold PageView.failed; split <;> rfl
  · rw [hmove.others id hid]

/-- Publications hold after every run that starts without webpage documents. -/
theorem publications_hold {start : Database} {steps : List MethodStep}
    (hstart : start.webpages.rows = [])
    (h : Trace (WebpageMethod.Runs opens) start steps db) : PublicationsHold opens steps db := by
  induction h with
  | nil =>
      intro id v hv hhash
      exact (Everywhere.of_noWebpages (I := fun _ => False) hstart id v hv).elim
  | snoc _ hrun ih => exact publications_step ih hrun

/-- A call that returns `False` or raises `ValueError` changes nothing. -/
theorem unchanged_of_refusal {start : Database} {steps : List MethodStep}
    (hstart : start.webpages.rows = []) (h : Trace (WebpageMethod.Runs opens) start steps db)
    {st : MethodStep} (hst : st ∈ steps)
    (hanswer : st.answer = .done (.ok false) ∨
      ∃ e, st.answer.raised = some e ∧ e.isValueError = true) : st.after = st.before := by
  have hsealed : Everywhere (PageView.Sealed opens) st.before :=
    (h.invariant_at (I := Everywhere (PageView.Sealed opens)) (Everywhere.of_noWebpages hstart)
      (fun hdb hrun => hrun.everywhere (fun _ hv => hv.sealed) (fun _ _ _ => sealed_step) hdb)
      hst).1
  rcases (h.step_of_mem hst).cases with ⟨hdb, _⟩ | ⟨c, _, huses, hexec⟩
  · exact hdb
  rcases hanswer with hfalse | ⟨e, hraised, hvalue⟩
  · rcases c.step huses hexec with ⟨hdb, _⟩ | ⟨id, move, hdoes, _⟩
    · exact hdb
    · rw [hfalse] at hdoes
      cases hdoes
  · exact c.unchanged_of_valueError huses hsealed hexec hraised hvalue

/-- In every run that starts without webpage documents: hash, content, chunks and status are
those of a published document or of none; a published document shows no error and exactly
the arguments of its last publication; a call that returns `False` or raises `ValueError`
changes nothing; and `fail` changes nothing that is shown. -/
theorem rows_of_last_publication {opens : Opens} {start db : Database}
    {steps : List MethodStep} (hstart : start.webpages.rows = [])
    (h : Trace (WebpageMethod.Runs opens) start steps db) :
    (∀ id v, viewOf db id = some v →
      (v.page.contentHash = none ↔
        TextStands opens v.page.content (v.binding "webpage:content") "") ∧
      (v.page.contentHash = none ↔ v.chunks = []) ∧
      (v.page.contentHash = none ↔ v.document.status ≠ .ready) ∧
      (v.page.contentHash ≠ none → v.document.error = none ∧
        ∃ args, LastPublication steps id args ∧ v.Holds opens args)) ∧
    (∀ st ∈ steps, (st.answer = .done (.ok false) ∨
        ∃ e, st.answer.raised = some e ∧ e.isValueError = true) → st.after = st.before) ∧
    (∀ st ∈ steps, ∀ cipher now claim error, st.call = .call (.fail cipher now claim error) →
      ∀ id, (viewOf st.after id).map shown = (viewOf st.before id).map shown) := by
  have hsettled : Everywhere (PageView.Settled opens) db :=
    h.invariant (I := Everywhere (PageView.Settled opens)) (Everywhere.of_noWebpages hstart)
      (fun hdb hrun => hrun.everywhere (fun _ hv => hv.settled) (fun _ _ _ => settled_step) hdb)
  have hpublished : PublicationsHold opens steps db := publications_hold hstart h
  refine ⟨?_, ?_, ?_⟩
  · intro id v hv
    have hid := hsettled id v hv
    obtain ⟨hcontent, hchunks, hstatus⟩ := hid.agree
    exact ⟨hcontent, hchunks, hstatus,
      fun hhash => ⟨(hid.published hhash).2.1, hpublished id v hv hhash⟩⟩
  · rintro st hst hanswer
    exact unchanged_of_refusal hstart h hst hanswer
  · rintro st hst cipher now claim error hcall id
    obtain ⟨huses, hexec⟩ := h.step_of_mem hst
    rw [hcall] at huses hexec
    exact shown_fail rfl huses hexec id

end Runs

/-- The sample run ends with a published document. -/
theorem storedHash_sampleRun : storedHash (sampleRun 3).2 7 = some "hash" := by decide +kernel

theorem rows_of_last_publication_sample :
    ∃ v, viewOf (sampleRun 3).2 7 = some v ∧ v.page.contentHash ≠ none ∧ v.document.error = none ∧
      ∃ args, LastPublication (sampleRun 3).1 7 args ∧ v.Holds clearOpens args := by
  obtain ⟨v, hv, hhash⟩ := Option.bind_eq_some_iff.mp storedHash_sampleRun
  have hpublished : v.page.contentHash ≠ none := by simp [hhash]
  obtain ⟨hrows, -, -⟩ := rows_of_last_publication rfl (sampleRun_trace 3)
  exact ⟨v, hv, hpublished, (hrows 7 v hv).2.2.2 hpublished⟩

end PortRag.Webpages
