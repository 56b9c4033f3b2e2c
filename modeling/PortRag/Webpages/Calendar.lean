import PortRag.Webpages.Runs

set_option autoImplicit false

/-!
# Automatic syncs

The columns `auto_sync`, `next_sync_at` and `last_checked_at` over whole runs: an automatic
sync is due a day after the last completed check, however often the switch was turned.
-/

namespace PortRag.Webpages

open PortRag.Foundation PortRag.Db PortRag.Security PortRag.Http PortRag.Ingest

/-! ## The invariant -/

/-- The next automatic sync follows the last check; a resting document was checked, and so
was one whose work is automatic. -/
structure PageView.Timed (v : PageView) : Prop where
  off : v.page.autoSync = false → v.page.nextSyncAt = none
  interval : v.page.autoSync = true → ∀ checked, v.page.lastCheckedAt = some checked →
    v.page.nextSyncAt = some (checked + syncInterval)
  resting : v.page.syncStatus = .idle ∨ v.page.syncStatus = .failed →
    v.page.lastCheckedAt ≠ none
  automatic : v.page.queueReason = .automatic → v.page.lastCheckedAt ≠ none

section Preservation

variable {opens : Opens} {v v' : PageView} {move : Move}

theorem PageView.New.timed (h : v.New opens) : v.Timed := by
  have hpage := h.page
  constructor
  · intro _
    rw [hpage]
    rfl
  · intro _ checked hchecked
    rw [hpage] at hchecked
    cases hchecked
  · intro hresting
    rw [hpage] at hresting
    rcases hresting with hresting | hresting <;> cases hresting
  · intro hautomatic
    rw [hpage] at hautomatic
    cases hautomatic

/-- The rows of a completed check. -/
theorem timed_of_closed {success : Option Bool} {syncError : Option String} {now : Time}
    {page : DocumentWebpage} (h : v.page = closed now success syncError page) : v.Timed := by
  constructor
  · intro hoff
    rw [h] at hoff ⊢
    exact if_neg (by rw [show page.autoSync = false from hoff]; decide)
  · intro hon checked hchecked
    rw [h] at hon hchecked ⊢
    cases hchecked
    exact if_pos hon
  · intro _
    rw [h]
    simp [closed]
  · intro _
    rw [h]
    simp [closed]

/-- What `set_auto_sync` does to the schedule. -/
theorem autoSyncSet_schedule (now : Time) (document : Document) (page : DocumentWebpage)
    (autoSync : Bool) :
    let row := (autoSyncSet now document page autoSync).2
    row.lastCheckedAt = page.lastCheckedAt ∧
      ((row.autoSync = page.autoSync ∧ row.nextSyncAt = page.nextSyncAt) ∨
        row.autoSync = autoSync ∧ row.nextSyncAt =
          if autoSync then some (page.lastCheckedAt.getD now + syncInterval) else none) := by
  unfold autoSyncSet
  dsimp only
  split
  · exact ⟨rfl, .inl ⟨rfl, rfl⟩⟩
  · split <;> exact ⟨rfl, .inr ⟨rfl, rfl⟩⟩

/-- Every move keeps the times of a document in agreement: the next automatic sync follows the last
check, and what rests or is synced automatically has been checked. -/
theorem timed_step (h : PageMove opens (some v) move (some v')) (hv : v.Timed) : v'.Timed := by
  cases h with
  | enqueued =>
      refine ⟨hv.off, hv.interval, fun hresting => ?_, fun hautomatic => (by cases hautomatic)⟩
      rcases hresting with hresting | hresting <;> cases hresting
  | @switched _ autoSync now =>
      obtain ⟨hchecked, hswitch⟩ := autoSyncSet_schedule now v.document v.page autoSync
      obtain ⟨-, -, -, -, -, -, -, -, -, hreason⟩ :=
        autoSyncSet_fields now v.document v.page autoSync
      constructor
      · rw [PageView.withRows_page]
        rcases hswitch with ⟨hsame, hnext⟩ | ⟨hset, hnext⟩
        · rw [hsame, hnext]
          exact hv.off
        · rintro hoff
          rw [hset] at hoff
          rw [hnext, hoff]
          rfl
      · rw [PageView.withRows_page, hchecked]
        rcases hswitch with ⟨hsame, hnext⟩ | ⟨hset, hnext⟩
        · rw [hsame, hnext]
          exact hv.interval
        · intro hon checked hlast
          rw [hset] at hon
          rw [hnext, hon, hlast]
          rfl
      · rw [PageView.withRows_page, hchecked]
        intro hresting
        rcases autoSyncSet_work now v.document v.page autoSync with ⟨hsame, -⟩ | ⟨-, hautomatic, -⟩
        · rw [hsame] at hresting
          exact hv.resting hresting
        · -- what a switch cancels was automatic, so there was a check before it
          exact hv.automatic hautomatic
      · rw [PageView.withRows_page, hchecked, hreason]
        exact hv.automatic
  | claimed =>
      refine ⟨hv.off, hv.interval, fun hresting => ?_, fun hautomatic => ?_⟩
      · rcases hresting with hresting | hresting <;> cases hresting
      · rw [PageView.withRows_page, claimed] at hautomatic
        split at hautomatic
        · next hresting => exact hv.resting hresting
        · exact hv.automatic hautomatic
  | published => exact timed_of_closed rfl
  | confirmed => exact timed_of_closed rfl
  | failed => exact timed_of_closed rfl

/-- Only a completed check changes `last_checked_at`. -/
theorem unchecked_step (h : PageMove opens (some v) move (some v'))
    (hcompletes : move.completes = false) : v'.page.lastCheckedAt = v.page.lastCheckedAt := by
  cases h with
  | enqueued => rfl
  | @switched _ autoSync now => exact (autoSyncSet_schedule now v.document v.page autoSync).1
  | claimed => rfl
  | published => cases hcompletes
  | confirmed => cases hcompletes
  | failed => cases hcompletes

end Preservation

/-! ## Completed checks -/

/-- `Checks st id now`: the step is a `finish` or `fail` for the document that returned `True`,
and the clock read `now`. -/
inductive Checks : Step Database WebpageMethod WebpageAnswer → Uuid → Time → Prop where
  | finish {before after : Database} {cipher : PrivateDataCipher} {uuid4 : Nat → Uuid}
      {now : Time} {claim : WebpageClaim} {content contentHash : String}
      {chunks : Option (List IngestChunk)} {embeddings : Option (List Embedding)} :
      Checks ⟨before, .call (.finish cipher uuid4 now claim content contentHash chunks
        embeddings), .done (.ok true), after⟩ claim.documentId now
  | fail {before after : Database} {cipher : PrivateDataCipher} {now : Time}
      {claim : WebpageClaim} {error : String} :
      Checks ⟨before, .call (.fail cipher now claim error), .done (.ok true), after⟩
        claim.documentId now

section Completion

variable {db : Database} {pd : PrivateData} {now : Time} {claim : WebpageClaim}

/-- The row of a completed check carries its clock reading. -/
theorem checkedAt_of_update {base : Database} {document : Document} {page : DocumentWebpage}
    {success : Option Bool} {syncError : Option String} {id : Uuid} {v : PageView}
    (hid : page.documentId = id)
    (hv : viewOf ((base.updateDocument document).updateWebpage
      (closed now success syncError page)) id = some v) : v.page.lastCheckedAt = some now := by
  have hpage := (viewOf_eq_some_iff.mp hv).2.1
  obtain ⟨hmem, hkey⟩ := Database.webpage?_eq_some_iff.mp hpage
  rw [Database.updateWebpage_webpages, Table.put_rows] at hmem
  obtain ⟨old, -, hold⟩ := List.mem_map.mp hmem
  split at hold
  · rw [← hold]
    rfl
  · next hne => exact absurd ((congrArg DocumentWebpage.documentId hold).trans (hkey.trans hid.symm)) hne

theorem checkedAt_of_finish {uuid4 : Nat → Uuid} {content contentHash : String}
    {chunks : Option (List IngestChunk)} {embeddings : Option (List Embedding)}
    {o : Outcome Bool} {v' : PageView}
    (h : finish pd uuid4 now db claim content contentHash chunks embeddings = o)
    (hresult : o.result = .ok true) (hv' : viewOf o.db claim.documentId = some v') :
    v'.page.lastCheckedAt = some now := by
  rcases complete_cases h with ⟨-, hrefused⟩ | ⟨-, ht⟩
  · exact absurd hresult hrefused
  rcases completeTransaction_ok ht with ⟨hfalse, -⟩ |
    ⟨-, -, v, hv, -, -, document', page', mid, hpublish, hdb⟩
  · cases hfalse
  have hid : page'.documentId = claim.documentId := by
    obtain ⟨-, -, -, ⟨-, -, rfl⟩ | ⟨_, _, _, _, -, -, -, -, -, -, -, rfl⟩⟩ := publish_ok hpublish
    · exact viewOf_page_id hv
    · exact viewOf_page_id hv
  rw [hdb] at hv'
  exact checkedAt_of_update hid hv'

theorem checkedAt_of_fail {error : String} {o : Outcome Bool} {v' : PageView}
    (h : fail pd now db claim error = o) (hresult : o.result = .ok true)
    (hv' : viewOf o.db claim.documentId = some v') : v'.page.lastCheckedAt = some now := by
  rcases complete_cases h with ⟨-, hrefused⟩ | ⟨-, ht⟩
  · exact absurd hresult hrefused
  rcases completeTransaction_ok ht with ⟨hfalse, -⟩ |
    ⟨-, -, v, hv, -, -, document', page', stored, hfailure, -, hdb⟩
  · cases hfalse
  have hid : page'.documentId = claim.documentId := by
    obtain ⟨rfl, -⟩ := recordFailure_ok hfailure
    exact viewOf_page_id hv
  rw [hdb] at hv'
  exact checkedAt_of_update hid hv'

end Completion

section Runs

variable {opens : Opens} {start db db' : Database} {m : WebpageMethod} {a : WebpageAnswer}
  {id : Uuid} {steps : List (Step Database WebpageMethod WebpageAnswer)}

theorem Checks.accepted {st : Step Database WebpageMethod WebpageAnswer} {now : Time}
    (h : Checks st id now) : st.answer.accepted = true := by
  cases h <;> rfl

/-- A completed check is the completing move of its document. -/
theorem Checks.target {now : Time} {c : WebpageCall} {target : Uuid} {move : Move}
    (h : Checks ⟨db, m, a, db'⟩ id now) (hm : m = .call c) (hdoes : c.Does a target move) :
    target = id ∧ move.completes = true := by
  cases h with
  | finish =>
      cases hm
      cases hdoes <;> exact ⟨rfl, rfl⟩
  | fail =>
      cases hm
      cases hdoes
      exact ⟨rfl, rfl⟩

/-- A completing move is a completed check. -/
theorem checks_of_completes {c : WebpageCall} {move : Move} {v' : PageView}
    (hdoes : c.Does a id move) (hcompletes : move.completes = true)
    (hexec : c.exec db = (a, db')) (hv' : viewOf db' id = some v') :
    ∃ now, Checks ⟨db, .call c, a, db'⟩ id now ∧ v'.page.lastCheckedAt = some now := by
  cases hdoes with
  | published =>
      simp only [WebpageCall.exec, Prod.mk.injEq, WebpageAnswer.done.injEq] at hexec
      obtain ⟨hresult, rfl⟩ := hexec
      exact ⟨_, .finish, checkedAt_of_finish rfl hresult hv'⟩
  | confirmed =>
      simp only [WebpageCall.exec, Prod.mk.injEq, WebpageAnswer.done.injEq] at hexec
      obtain ⟨hresult, rfl⟩ := hexec
      exact ⟨_, .finish, checkedAt_of_finish rfl hresult hv'⟩
  | failed =>
      simp only [WebpageCall.exec, Prod.mk.injEq, WebpageAnswer.done.injEq] at hexec
      obtain ⟨hresult, rfl⟩ := hexec
      exact ⟨_, .fail, checkedAt_of_fail rfl hresult hv'⟩
  | create => cases hcompletes
  | enqueue => cases hcompletes
  | setAutoSync => cases hcompletes
  | claimCandidate => cases hcompletes

/-- What a method did to `last_checked_at`: it checked the document, or left it alone, or
registered it. -/
theorem checked_step (h : WebpageMethod.Runs opens db m a db') {v' : PageView}
    (hv' : viewOf db' id = some v') :
    (∃ now, Checks ⟨db, m, a, db'⟩ id now ∧ v'.page.lastCheckedAt = some now) ∨
      (∀ now, ¬ Checks ⟨db, m, a, db'⟩ id now) ∧
        ((viewOf db id = none ∧ v'.page.lastCheckedAt = none) ∨
          ∃ v, viewOf db id = some v ∧ v'.page.lastCheckedAt = v.page.lastCheckedAt) := by
  rcases h.cases with ⟨rfl, hrefused, -⟩ | ⟨c, hm, huses, hexec⟩
  · refine .inr ⟨fun now hchecks => ?_, .inr ⟨v', hv', rfl⟩⟩
    rw [hchecks.accepted] at hrefused
    cases hrefused
  rcases c.step huses hexec with ⟨rfl, hrefused⟩ | ⟨target, move, hdoes, hmove⟩
  · refine .inr ⟨fun now hchecks => ?_, .inr ⟨v', hv', rfl⟩⟩
    rw [hchecks.accepted] at hrefused
    cases hrefused
  have hclaim : (∀ c', m ≠ .call c') → ∀ now, ¬ Checks ⟨db, m, a, db'⟩ id now := by
    intro hnot now hchecks
    cases hchecks <;> exact hnot _ rfl
  have hquiet : (target ≠ id ∨ move.completes = false) →
      ∀ now, ¬ Checks ⟨db, m, a, db'⟩ id now := by
    intro hother now hchecks
    rcases hm with rfl | ⟨_, _, _, _, _, _, _, rfl, -⟩
    · obtain ⟨rfl, hcompletes⟩ := hchecks.target rfl hdoes
      rcases hother with hne | hnot
      · exact hne rfl
      · rw [hcompletes] at hnot
        cases hnot
    · exact hclaim (fun _ h => (by cases h)) now hchecks
  by_cases hid : target = id
  · subst hid
    cases hcompletes : move.completes with
    | true =>
        rcases hm with rfl | ⟨_, _, _, _, _, _, _, rfl, rfl⟩
        · exact .inl (checks_of_completes hdoes hcompletes hexec hv')
        · cases hdoes
          cases hcompletes
    | false =>
        refine .inr ⟨hquiet (.inr hcompletes), ?_⟩
        have hrows := hmove.rows
        rw [hv'] at hrows
        cases hv : viewOf db target with
        | none =>
            rw [hv] at hrows
            cases hrows with
            | created hnew =>
                rw [hnew.page]
                exact .inl ⟨rfl, rfl⟩
        | some v =>
            rw [hv] at hrows
            exact .inr ⟨v, rfl, unchecked_step hrows hcompletes⟩
  · exact .inr ⟨hquiet (.inl hid), .inr ⟨v', (hmove.others id (Ne.symm hid)).symm.trans hv', rfl⟩⟩

/-- `last_checked_at` is the clock reading of the last completed check. -/
theorem last_check (hstart : start.webpages.rows = [])
    (h : Trace (WebpageMethod.Runs opens) start steps db) {v : PageView} {checked : Time}
    (hv : viewOf db id = some v) (hchecked : v.page.lastCheckedAt = some checked) :
    ∃ earlier st later, steps = earlier ++ st :: later ∧ Checks st id checked ∧
      ∀ st' ∈ later, ∀ now, ¬ Checks st' id now := by
  induction h generalizing v with
  | nil =>
      obtain ⟨-, hpage, -⟩ := viewOf_eq_some_iff.mp hv
      obtain ⟨hmem, -⟩ := Database.webpage?_eq_some_iff.mp hpage
      rw [hstart] at hmem
      cases hmem
  | @snoc before after init m a _ hrun ih =>
      rcases checked_step hrun hv with ⟨now, hchecks, hnow⟩ | ⟨hquiet, ⟨-, hnone⟩ | ⟨w, hw, hsame⟩⟩
      · obtain rfl : now = checked := Option.some.inj (hnow.symm.trans hchecked)
        exact ⟨_, _, [], rfl, hchecks, by simp⟩
      · rw [hnone] at hchecked
        cases hchecked
      · obtain ⟨earlier, st, later, rfl, hchecks, hlater⟩ := ih hw (hsame.symm.trans hchecked)
        refine ⟨earlier, st, later ++ [⟨before, m, a, after⟩], by simp, hchecks, ?_⟩
        intro st' hst'
        rcases List.mem_append.mp hst' with hst' | hst'
        · exact hlater st' hst'
        · rw [List.mem_singleton.mp hst']
          exact hquiet

/-! ## The schedule -/

/-- What the columns of a webpage row say about its schedule. -/
structure PageView.OnSchedule (v : PageView) : Prop where
  claimed : v.page.syncStatus = .running ↔ v.page.claimToken ≠ none ∧ v.page.claimedAt ≠ none
  off : v.page.autoSync = false → v.page.nextSyncAt = none
  next : v.page.autoSync = true → v.page.syncStatus = .idle ∨ v.page.syncStatus = .failed →
    v.page.nextSyncAt ≠ none
  interval : v.page.autoSync = true → ∀ checked, v.page.lastCheckedAt = some checked →
    v.page.nextSyncAt = some (checked + syncInterval)
  checked : v.page.syncStatus = .idle ∨ v.page.syncStatus = .failed → v.page.lastCheckedAt ≠ none

theorem PageView.Timed.onSchedule {v : PageView} (hv : v.Timed) (hleased : v.Leased) :
    v.OnSchedule := by
  refine ⟨⟨fun hrunning => ?_, fun ⟨htoken, _⟩ => ?_⟩, hv.off, fun hon hresting => ?_,
    hv.interval, hv.resting⟩
  · obtain ⟨token, at_, htoken, hat⟩ := hleased.running hrunning
    simp [htoken, hat]
  · by_contra hresting
    exact htoken (hleased.resting hresting)
  · obtain ⟨checked, hchecked⟩ := Option.ne_none_iff_exists'.mp (hv.resting hresting)
    rw [hv.interval hon checked hchecked]
    simp

/-- Whether an automatic sync is due: the third case of `_due`. -/
def dueAutomatically (now : Time) (page : DocumentWebpage) : Bool :=
  page.autoSync && (page.syncStatus = .idle || page.syncStatus = .failed)
    && page.nextSyncAt.any (fun at_ => at_ ≤ now)

/-- A document that rests or failed is claimed only when an automatic sync is due. -/
theorem dueAutomatically_of_due {now : Time} {page : DocumentWebpage} (h : due now page = true)
    (hresting : page.syncStatus = .idle ∨ page.syncStatus = .failed) :
    dueAutomatically now page = true := by
  rcases hresting with hresting | hresting <;>
    simpa [due, dueAutomatically, hresting] using h

/-- The step claimed the document for new automatic work at this clock reading. -/
def StartsAutomatic (st : Step Database WebpageMethod WebpageAnswer) (id : Uuid) (now : Time) :
    Prop :=
  (∃ claim, st.answer = .claim (.ok (some claim)) ∧ claim.documentId = id) ∧
    (∃ v, viewOf st.before id = some v ∧
      (v.page.syncStatus = .idle ∨ v.page.syncStatus = .failed)) ∧
    ∃ v, viewOf st.after id = some v ∧ v.page.claimedAt = some now

/-- New automatic work was due. -/
theorem StartsAutomatic.due {st : Step Database WebpageMethod WebpageAnswer} {now : Time}
    (h : StartsAutomatic st id now)
    (hrun : WebpageMethod.Runs opens st.before st.call st.answer st.after) :
    ∃ v, viewOf st.before id = some v ∧
      (v.page.syncStatus = .idle ∨ v.page.syncStatus = .failed) ∧
      dueAutomatically now v.page = true := by
  obtain ⟨⟨claim, hanswer, hid⟩, ⟨v, hv, hresting⟩, v', hv', hat⟩ := h
  rw [hanswer] at hrun
  rcases hrun.cases with ⟨-, hrefused, -⟩ | ⟨c, -, huses, hexec⟩
  · cases hrefused
  rcases c.step huses hexec with ⟨-, hrefused⟩ | ⟨target, move, hdoes, hmove⟩
  · cases hrefused
  cases hdoes with
  | claimCandidate htarget =>
      obtain rfl := htarget.symm.trans hid
      obtain ⟨w, hw, hdue, hafter⟩ := hmove.of_claimed
      rw [hw] at hv
      cases hv
      rw [hafter] at hv'
      cases hv'
      cases hat
      exact ⟨v, hw, hresting, dueAutomatically_of_due hdue hresting⟩

/-- No method of the repository deletes a webpage document. -/
theorem viewOf_stays (h : WebpageMethod.Runs opens db m a db') {v : PageView}
    (hv : viewOf db id = some v) : ∃ v', viewOf db' id = some v' := by
  rcases h.cases with ⟨rfl, -⟩ | ⟨c, -, huses, hexec⟩
  · exact ⟨v, hv⟩
  rcases c.step huses hexec with ⟨rfl, -⟩ | ⟨target, move, hdoes, hmove⟩
  · exact ⟨v, hv⟩
  by_cases hid : id = target
  · subst hid
    have hrows := hmove.rows
    cases hv' : viewOf db' id with
    | some v' => exact ⟨v', rfl⟩
    | none =>
        rw [hv, hv'] at hrows
        cases hrows
        cases hdoes
  · exact ⟨v, (hmove.others id hid).trans hv⟩

/-- An accepted claim of a document that rests. -/
theorem starts_of_accepted {cipher : PrivateDataCipher} (huses : cipher.Uses opens)
    {token documentId owner : Uuid} {now : Time} {v : PageView}
    (ha : ((WebpageCall.claimCandidate cipher token now documentId owner).exec db).1.accepted
      = true)
    (hv : viewOf db documentId = some v)
    (hresting : v.page.syncStatus = .idle ∨ v.page.syncStatus = .failed) :
    StartsAutomatic ⟨db, .call (.claimCandidate cipher token now documentId owner),
      ((WebpageCall.claimCandidate cipher token now documentId owner).exec db).1,
      ((WebpageCall.claimCandidate cipher token now documentId owner).exec db).2⟩ documentId now := by
  generalize hexec : (WebpageCall.claimCandidate cipher token now documentId owner).exec db = o at ha
  have huses' : (WebpageCall.claimCandidate cipher token now documentId owner).cipher.Uses opens :=
    huses
  obtain ⟨a, db'⟩ := o
  rcases WebpageCall.step huses' hexec with ⟨-, hrefused⟩ | ⟨id, move, hdoes, hmove⟩
  · exact absurd (ha.symm.trans hrefused) (by decide)
  · cases hdoes with
    | claimCandidate hid htoken =>
        obtain ⟨w, -, -, hafter⟩ := hmove.of_claimed
        exact ⟨⟨_, rfl, hid⟩, ⟨v, hv, hresting⟩, _, hafter, rfl⟩

/-- A stretch without completed checks keeps `last_checked_at` of a document. -/
theorem unchecked_run {later : List (Step Database WebpageMethod WebpageAnswer)} {v v' : PageView}
    (h : Trace (WebpageMethod.Runs opens) db later db') (hv : viewOf db id = some v)
    (hquiet : ∀ st ∈ later, ∀ now, ¬ Checks st id now) (hv' : viewOf db' id = some v') :
    v'.page.lastCheckedAt = v.page.lastCheckedAt := by
  have hkept : ∃ w, viewOf db' id = some w ∧ w.page.lastCheckedAt = v.page.lastCheckedAt := by
    refine h.holds_through (P := fun s => ∃ w, viewOf s id = some w ∧
      w.page.lastCheckedAt = v.page.lastCheckedAt) ⟨v, hv, rfl⟩ ?_
    rintro st hst hrun ⟨w, hw, hsame⟩
    obtain ⟨w', hw'⟩ := viewOf_stays hrun hw
    refine ⟨w', hw', ?_⟩
    rcases checked_step hrun hw' with ⟨now, hchecks, -⟩ | ⟨-, ⟨hnone, -⟩ | ⟨u, hu, hkeep⟩⟩
    · exact absurd hchecks (hquiet st hst now)
    · rw [hw] at hnone
      cases hnone
    · rw [hw] at hu
      cases hu
      exact hkeep.trans hsame
  obtain ⟨w, hw, hsame⟩ := hkept
  rw [hv'] at hw
  cases hw
  exact hsame

theorem timed_of_run (hstart : start.webpages.rows = [])
    (h : Trace (WebpageMethod.Runs opens) start steps db) : Everywhere PageView.Timed db :=
  h.invariant (I := Everywhere PageView.Timed) (Everywhere.of_noWebpages hstart)
    (fun hdb hrun => hrun.everywhere (fun _ hv => hv.timed) (fun _ _ _ => timed_step) hdb)

/-- Before its first check a document is busy. -/
theorem PageView.Timed.not_due {v : PageView} (hv : v.Timed) (hnone : v.page.lastCheckedAt = none)
    (now : Time) : dueAutomatically now v.page = false := by
  cases hdue : dueAutomatically now v.page with
  | false => rfl
  | true =>
      simp only [dueAutomatically, Bool.and_eq_true, Bool.or_eq_true, decide_eq_true_eq] at hdue
      exact absurd hnone (hv.resting hdue.1.2)

/-- The schedule of webpage documents, in every run that starts without any.  In every state
the columns agree.  In a stretch without completed checks, however the switch is turned,
the next automatic sync stays where it was; before the first check none is due.  And
automatic work starts at least a day after the last completed check. -/
theorem schedule_holds (hstart : start.webpages.rows = [])
    (h : Trace (WebpageMethod.Runs opens) start steps db) :
    (∀ id v, viewOf db id = some v → v.OnSchedule) ∧
    (∀ later db', Trace (WebpageMethod.Runs opens) db later db' →
      ∀ id v v', viewOf db id = some v → viewOf db' id = some v' →
      (∀ st ∈ later, ∀ now, ¬ Checks st id now) →
      v.page.autoSync = true → v'.page.autoSync = true →
      (v.page.lastCheckedAt ≠ none → v'.page.nextSyncAt = v.page.nextSyncAt) ∧
      (v.page.lastCheckedAt = none → ∀ now, dueAutomatically now v.page = false ∧
        dueAutomatically now v'.page = false)) ∧
    (∀ earlier st later, steps = earlier ++ st :: later → ∀ id now, StartsAutomatic st id now →
      ∃ first st' rest checked, earlier = first ++ st' :: rest ∧ Checks st' id checked ∧
        (∀ st'' ∈ rest, ∀ t, ¬ Checks st'' id t) ∧ checked + syncInterval ≤ now) := by
  have htimed := timed_of_run hstart h
  refine ⟨fun id v hv => ?_, ?_, ?_⟩
  · have hleased : Everywhere PageView.Leased db :=
      h.invariant (I := Everywhere PageView.Leased) (Everywhere.of_noWebpages hstart)
        (fun hdb hrun => hrun.everywhere (fun _ hv => hv.leased) (fun _ _ _ => leased_step) hdb)
    exact (htimed id v hv).onSchedule (hleased id v hv)
  · intro later db' hlater id v v' hv hv' hquiet hon hon'
    have hsame := unchecked_run hlater hv hquiet hv'
    have htimed' := timed_of_run hstart (h.append hlater) id v' hv'
    constructor
    · intro hchecked
      obtain ⟨checked, hchecked⟩ := Option.ne_none_iff_exists'.mp hchecked
      rw [(htimed id v hv).interval hon checked hchecked,
        htimed'.interval hon' checked (hsame.trans hchecked)]
    · intro hnone now
      exact ⟨(htimed id v hv).not_due hnone now, htimed'.not_due (hsame.trans hnone) now⟩
  · rintro earlier st later rfl id now hstarts
    obtain ⟨hearlier, hrun, -⟩ := h.split_at
    obtain ⟨v, hv, hresting, hdue⟩ := hstarts.due hrun
    have hv_timed := timed_of_run hstart hearlier id v hv
    obtain ⟨checked, hchecked⟩ := Option.ne_none_iff_exists'.mp (hv_timed.resting hresting)
    obtain ⟨first, st', rest, hsplit, hchecks, hquiet⟩ := last_check hstart hearlier hv hchecked
    refine ⟨first, st', rest, checked, hsplit, hchecks, hquiet, ?_⟩
    simp only [dueAutomatically, Bool.and_eq_true] at hdue
    obtain ⟨⟨hon, -⟩, hnext⟩ := hdue
    rw [hv_timed.interval hon checked hchecked] at hnext
    simpa using hnext

end Runs

/-! ## A sample day -/

/-- The document of the sample run, claimed again a day after its publication. -/
def sampleDay : List (Step Database WebpageMethod WebpageAnswer) × Database :=
  run WebpageMethod.exec .empty
    ((sampleCalls ++ [WebpageCall.claimCandidate clearCipher 11 (20 + syncInterval) 7 1]).map .call)

theorem sampleDay_trace :
    Trace (WebpageMethod.Runs clearOpens) .empty sampleDay.1 sampleDay.2 := by
  refine run_trace ?_
  intro m hm db
  obtain ⟨c, hc, rfl⟩ := List.mem_map.mp hm
  rcases List.mem_append.mp hc with hc | hc
  · exact ⟨sampleCalls_uses hc, rfl⟩
  · rw [List.mem_singleton.mp hc]
    exact ⟨clearCipher_uses, rfl⟩

theorem schedule_holds_sample : ∃ first st' rest checked,
    (sampleRun 3).1 = first ++ st' :: rest ∧ Checks st' 7 checked ∧
      checked + syncInterval ≤ 20 + syncInterval := by
  obtain ⟨-, -, hdaily⟩ := schedule_holds rfl sampleDay_trace
  have haccepted : ((WebpageCall.claimCandidate clearCipher 11 (20 + syncInterval) 7 1).exec
      (sampleRun 3).2).1.accepted = true := by decide +kernel
  have hrests : (viewOf (sampleRun 3).2 7).any (fun v => v.page.syncStatus = .idle) = true := by
    decide +kernel
  obtain ⟨v, hv, hidle⟩ := (Option.any_eq_true _ _).mp hrests
  have hstarts := starts_of_accepted clearCipher_uses haccepted hv (.inl (by simpa using hidle))
  obtain ⟨first, st', rest, checked, hsplit, hchecks, -, hle⟩ :=
    hdaily (sampleRun 3).1 _ [] rfl 7 (20 + syncInterval) hstarts
  exact ⟨first, st', rest, checked, hsplit, hchecks, hle⟩

end PortRag.Webpages
