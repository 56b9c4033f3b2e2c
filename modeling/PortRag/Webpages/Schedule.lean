import PortRag.Webpages.Runs

set_option autoImplicit false

/-!
# Requested syncs

No run of the repository loses a requested sync or leaves a document processing without
work queued or running for it.
-/

namespace PortRag.Webpages

open PortRag.Foundation PortRag.Db PortRag.Security PortRag.Http PortRag.Ingest

/-- `Requests st id reason`: the step registered the document or accepted a request for it. -/
inductive Requests : Step Database WebpageMethod WebpageAnswer → Uuid → QueueReason → Prop where
  | create {before after : Database} {cipher : PrivateDataCipher} {lib : UrlFunctions}
      {documentId userId : Uuid} {now : Time} {knowledgeKey : String} {name : Option String}
      {urls : List String} {autoSync : Bool} {record : DocumentRecord} :
      Requests ⟨before, .call (.create cipher lib documentId now userId knowledgeKey name urls
        autoSync), .record (.ok record), after⟩ documentId .initial
  | enqueue {before after : Database} {cipher : PrivateDataCipher} {documentId userId : Uuid}
      {now : Time} {detail : WebpageDetail} :
      Requests ⟨before, .call (.enqueue cipher now documentId userId), .detail (.ok (some detail)),
        after⟩ documentId .manual

/-- `Completes st id`: the step is a `finish` or `fail` for the document that returned
`True`. -/
inductive Completes : Step Database WebpageMethod WebpageAnswer → Uuid → Prop where
  | finish {before after : Database} {cipher : PrivateDataCipher} {uuid4 : Nat → Uuid}
      {now : Time} {claim : WebpageClaim} {content contentHash : String}
      {chunks : Option (List IngestChunk)} {embeddings : Option (List Embedding)} :
      Completes ⟨before, .call (.finish cipher uuid4 now claim content contentHash chunks
        embeddings), .done (.ok true), after⟩ claim.documentId
  | fail {before after : Database} {cipher : PrivateDataCipher} {now : Time}
      {claim : WebpageClaim} {error : String} :
      Completes ⟨before, .call (.fail cipher now claim error), .done (.ok true), after⟩
        claim.documentId

theorem Completes.not_claimCandidate {st : Step Database WebpageMethod WebpageAnswer}
    {id : Uuid} (h : Completes st id) {cipher : PrivateDataCipher} {token documentId owner : Uuid}
    {now : Time} : st.call ≠ .call (.claimCandidate cipher token now documentId owner) := by
  cases h <;> simp

section Runs

variable {opens : Opens} {db db' : Database} {m : WebpageMethod} {a : WebpageAnswer}
  {id : Uuid} {reason : QueueReason}

/-- The document has work of this reason queued or running. -/
def WorkStands (id : Uuid) (reason : QueueReason) (db : Database) : Prop :=
  ∃ v, viewOf db id = some v ∧ v.Requested reason

/-- A request leaves work. -/
theorem workStands_of_requests (hrun : WebpageMethod.Runs opens db m a db')
    (h : Requests ⟨db, m, a, db'⟩ id reason) : WorkStands id reason db' := by
  have haccepted : a.accepted = true := by cases h <;> rfl
  have hcall : ∃ c, m = .call c := by cases h <;> exact ⟨_, rfl⟩
  obtain ⟨c, rfl⟩ := hcall
  obtain ⟨huses, hexec⟩ := hrun
  rcases c.step huses hexec with ⟨-, hrefused⟩ | ⟨target, move, hdoes, hmove⟩
  · rw [haccepted] at hrefused
    cases hrefused
  have hrows := hmove.rows
  cases h with
  | create =>
      cases hdoes
      generalize viewOf db id = before at hrows
      generalize hv : viewOf db' id = after at hrows
      cases hrows with
      | created hnew => exact ⟨_, hv, hnew.requested⟩
  | enqueue =>
      cases hdoes
      generalize viewOf db id = before at hrows
      generalize hv : viewOf db' id = after at hrows
      cases hrows with
      | enqueued => exact ⟨_, hv, .inl rfl, rfl, by decide⟩

/-- Work stands until it is completed, under the reason for which it was requested. -/
theorem workStands_step (hrun : WebpageMethod.Runs opens db m a db')
    (hcompletes : ¬ Completes ⟨db, m, a, db'⟩ id) (h : WorkStands id reason db) :
    WorkStands id reason db' := by
  rcases hrun.cases with ⟨rfl, _⟩ | ⟨c, hm, huses, hexec⟩
  · exact h
  rcases c.step huses hexec with ⟨rfl, _⟩ | ⟨target, move, hdoes, hmove⟩
  · exact h
  obtain ⟨v, hv, hrequested⟩ := h
  by_cases hid : id = target
  · subst hid
    have hrows := hmove.rows
    rw [hv] at hrows
    refine requested_step hrows ?_ ?_ hrequested
    · -- a completing move is a completing call
      cases hcompleting : move.completes with
      | false => rfl
      | true =>
          refine absurd ?_ hcompletes
          cases hdoes with
          | published =>
              rcases hm with rfl | ⟨_, _, _, _, _, _, _, _, hturn⟩
              · exact .finish
              · cases hturn
          | confirmed =>
              rcases hm with rfl | ⟨_, _, _, _, _, _, _, _, hturn⟩
              · exact .finish
              · cases hturn
          | failed =>
              rcases hm with rfl | ⟨_, _, _, _, _, _, _, _, hturn⟩
              · exact .fail
              · cases hturn
          | create => cases hcompleting
          | enqueue => cases hcompleting
          | setAutoSync => cases hcompleting
          | claimCandidate => cases hcompleting
    · rintro rfl
      cases hdoes
  · exact ⟨v, (hmove.others id hid).trans hv, hrequested⟩

/-- In every run that starts without webpage documents: a processing document is queued or
running for an initial or manual request, a queued one is queued for such a request, and
the work of a request stays queued or running under its reason until a `finish` or `fail`
for the document returns `True`. -/
theorem requests_stay {start : Database}
    {steps : List (Step Database WebpageMethod WebpageAnswer)}
    (hstart : start.webpages.rows = [])
    (h : Trace (WebpageMethod.Runs opens) start steps db) :
    (∀ id v, viewOf db id = some v →
      (v.document.status = .processing →
        (v.page.syncStatus = .queued ∨ v.page.syncStatus = .running) ∧
          (v.page.queueReason = .initial ∨ v.page.queueReason = .manual)) ∧
      (v.page.syncStatus = .queued →
        v.page.queueReason = .initial ∨ v.page.queueReason = .manual)) ∧
    (∀ earlier st later, steps = earlier ++ st :: later → ∀ id reason, Requests st id reason →
      (∀ st' ∈ later, ¬ Completes st' id) →
      ∃ v, viewOf db id = some v ∧
        (v.page.syncStatus = .queued ∨ v.page.syncStatus = .running) ∧
        v.page.queueReason = reason) := by
  have hscheduled : Everywhere PageView.Scheduled db :=
    h.invariant (I := Everywhere PageView.Scheduled) (Everywhere.of_noWebpages hstart)
      (fun hdb hrun => hrun.everywhere (fun _ hv => hv.scheduled) (fun _ _ _ => scheduled_step) hdb)
  refine ⟨fun id v hv => ⟨(hscheduled id v hv).processing, (hscheduled id v hv).queued⟩, ?_⟩
  rintro earlier st later rfl id reason hrequests hquiet
  obtain ⟨-, hstep, hlater⟩ := h.split_at
  have hwork : WorkStands id reason db :=
    hlater.holds_through (workStands_of_requests hstep hrequests)
      (fun st' hst' hstep' hstands => workStands_step hstep' (hquiet st' hst') hstands)
  obtain ⟨v, hv, hwork, hreason, -⟩ := hwork
  exact ⟨v, hv, hwork, hreason⟩

theorem requests_stay_sample :
    ∃ v, viewOf (sampleRun 2).2 7 = some v ∧
      (v.page.syncStatus = .queued ∨ v.page.syncStatus = .running) ∧
      v.page.queueReason = .initial := by
  have haccepted : (WebpageAnswer.record (create clearCipher.privateData ⟨.ok, id⟩ 7 0 .empty 1
      "key" none ["u"] true).result).accepted = true := by decide +kernel
  obtain ⟨record, hrecord⟩ := WebpageAnswer.ok_of_accepted_record haccepted
  obtain ⟨-, hstay⟩ := requests_stay rfl (sampleRun_trace 2)
  refine hstay [] _ _ rfl 7 .initial ?_ ?_
  · simp only [WebpageMethod.exec, WebpageCall.exec, hrecord]
    exact .create
  · intro st hst hcompletes
    have hcall : st.call = .call (.claimCandidate clearCipher 9 10 7 1) := by
      rw [List.mem_singleton.mp hst]
    exact hcompletes.not_claimCandidate hcall

end Runs

end PortRag.Webpages
