import PortRag.Webpages.Runs

set_option autoImplicit false

/-!
# Leases

Any number of workers and users work on the database, one transaction after the other in
any order.  Two claims of a document overlap only after the lease of the first, a claim is
settled at most once, and only the latest claim of a document can be settled.
-/

namespace PortRag.Webpages

open PortRag.Foundation PortRag.Db PortRag.Security PortRag.Http PortRag.Ingest

/-! ## Events -/

/-- The transactions of workers and users, and the fence of an owner. -/
inductive WebpageEvent where
  | call (c : WebpageCall)
  | deleteDocument (documentId userId : Uuid)
  | fence (userId : Uuid)

namespace WebpageEvent

/-- The clock reading of the transaction. -/
def time : WebpageEvent → Option Time
  | .call (.create _ _ _ now _ _ _ _ _) => some now
  | .call (.enqueue _ now _ _) => some now
  | .call (.setAutoSync _ now _ _ _) => some now
  | .call (.claimCandidate _ _ now _ _) => some now
  | .call (.finish _ _ now _ _ _ _ _) => some now
  | .call (.fail _ now _ _) => some now
  | .deleteDocument _ _ => none
  | .fence _ => none

/-- The event on a database. -/
def exec : WebpageEvent → Database → WebpageAnswer × Database
  | .call c, db => c.exec db
  | .deleteDocument documentId userId, db =>
      let o := Http.deleteDocument db documentId userId
      (.deleted o.result, o.db)
  | .fence userId, db => (.fenced, Security.fence db userId)

/-- One step of a run whose encryption service works with the key material `opens`. -/
def Runs (opens : Opens) (db : Database) (e : WebpageEvent) (a : WebpageAnswer)
    (db' : Database) : Prop :=
  (∀ c, e = .call c → c.cipher.Uses opens) ∧ e.exec db = (a, db')

/-- Which move an event makes, and on which document. -/
inductive Does : WebpageEvent → WebpageAnswer → Uuid → Move → Prop where
  | call {c : WebpageCall} {a : WebpageAnswer} {id : Uuid} {move : Move} (h : c.Does a id move) :
      Does (.call c) a id move
  | deleteDocument {documentId userId : Uuid} {result : Except Exc Bool} :
      Does (.deleteDocument documentId userId) (.deleted result) documentId .deleted

variable {opens : Opens} {e : WebpageEvent} {db db' : Database} {a : WebpageAnswer}

/-- An event makes a move, or leaves the rows of every webpage document alone. -/
theorem Runs.cases (h : Runs opens db e a db') :
    ((∀ id, viewOf db' id = viewOf db id) ∧ a.accepted = false) ∨
      ∃ id move, e.Does a id move ∧ Moves opens db id move db' := by
  obtain ⟨huses, h⟩ := h
  cases e with
  | call c =>
      rcases c.step (huses c rfl) h with ⟨rfl, ha⟩ | ⟨id, move, hdoes, hmove⟩
      · exact .inl ⟨fun _ => rfl, ha⟩
      · exact .inr ⟨id, move, .call hdoes, hmove⟩
  | deleteDocument documentId userId =>
      simp only [exec] at h
      generalize ho : Http.deleteDocument _ _ _ = o at h
      cases h
      rcases deleteDocument_spec opens ho with ⟨hviews, _⟩ | hmove
      · exact .inl ⟨hviews, rfl⟩
      · exact .inr ⟨_, _, .deleteDocument, hmove⟩
  | fence userId =>
      cases h
      exact .inl ⟨fun _ => rfl, rfl⟩

end WebpageEvent

/-- A recorded event. -/
abbrev EventStep := Step Database WebpageEvent WebpageAnswer

/-! ## What happens to claims -/

/-- The step claimed a document: the claim handed out, and when. -/
inductive Claims : EventStep → WebpageClaim → Time → Prop where
  | turn {before after : Database} {cipher : PrivateDataCipher} {token documentId owner : Uuid}
      {now : Time} {claim : WebpageClaim} :
      Claims ⟨before, .call (.claimCandidate cipher token now documentId owner),
        .claim (.ok (some claim)), after⟩ claim now

/-- A `finish` or `fail` for this claim returned `True`. -/
inductive Settles : EventStep → WebpageClaim → Prop where
  | finish {before after : Database} {cipher : PrivateDataCipher} {uuid4 : Nat → Uuid}
      {now : Time} {claim : WebpageClaim} {content contentHash : String}
      {chunks : Option (List IngestChunk)} {embeddings : Option (List Embedding)} :
      Settles ⟨before, .call (.finish cipher uuid4 now claim content contentHash chunks
        embeddings), .done (.ok true), after⟩ claim
  | fail {before after : Database} {cipher : PrivateDataCipher} {now : Time}
      {claim : WebpageClaim} {error : String} :
      Settles ⟨before, .call (.fail cipher now claim error), .done (.ok true), after⟩ claim

/-- Switching auto-sync off took the document from the claim with this token. -/
def Cancels (st : EventStep) (documentId token : Uuid) : Prop :=
  (∃ cipher now userId, st.call = .call (.setAutoSync cipher now documentId userId false)) ∧
    (∃ v, viewOf st.before documentId = some v ∧ v.heldBy token) ∧
    ∀ v, viewOf st.after documentId = some v → ¬ v.heldBy token

/-- The step registered a document under this identifier. -/
def Registers (st : EventStep) (documentId : Uuid) : Prop :=
  ∃ cipher lib now userId knowledgeKey name urls autoSync record,
    st.call = .call (.create cipher lib documentId now userId knowledgeKey name urls autoSync) ∧
      st.answer = .record (.ok record)

/-- The token of the claim that a step handed out. -/
def claimedToken (st : EventStep) : Option Uuid :=
  match st.answer with
  | .claim (.ok (some claim)) => some claim.token
  | _ => none

/-- No claim token was handed out twice. -/
def TokensFresh (steps : List EventStep) : Prop := (steps.filterMap claimedToken).Nodup

/-- No clock reading lies before an earlier one. -/
def ClockMonotone (steps : List EventStep) : Prop :=
  (steps.filterMap (fun st => st.call.time)).Pairwise (· ≤ ·)

theorem Claims.token {st : EventStep} {claim : WebpageClaim} {now : Time} (h : Claims st claim now) :
    claimedToken st = some claim.token := by
  cases h
  rfl

theorem Claims.unique {st : EventStep} {claim claim' : WebpageClaim} {now now' : Time}
    (h : Claims st claim now) (h' : Claims st claim' now') : claim = claim' ∧ now = now' := by
  cases h
  cases h'
  exact ⟨rfl, rfl⟩

theorem Claims.time {st : EventStep} {claim : WebpageClaim} {now : Time} (h : Claims st claim now) :
    st.call.time = some now := by
  cases h
  rfl

section Steps

variable {opens : Opens} {db db' : Database} {e : WebpageEvent} {a : WebpageAnswer}

/-- A settling step found the row held by its claim, whose owner was active. -/
theorem Settles.accepts {st : EventStep} {claim : WebpageClaim} (h : Settles st claim)
    (hrun : WebpageEvent.Runs opens st.before st.call st.answer st.after) :
    ∃ v, Accepts st.before claim v := by
  obtain ⟨huses, hexec⟩ := hrun
  cases h with
  | finish =>
      have huses := huses _ rfl
      simp only [WebpageEvent.exec, WebpageCall.exec] at hexec
      generalize ho : Webpages.finish _ _ _ _ _ _ _ _ _ = o at hexec
      obtain ⟨hdone, -⟩ := Prod.mk.inj hexec
      cases o with
      | mk result after =>
          cases hdone
          rcases finish_spec huses ho with ⟨-, hrefused⟩ | ⟨-, v, haccepts, -⟩
          · exact absurd rfl hrefused
          · exact ⟨v, haccepts⟩
  | fail =>
      have huses := huses _ rfl
      simp only [WebpageEvent.exec, WebpageCall.exec] at hexec
      generalize ho : Webpages.fail _ _ _ _ _ = o at hexec
      obtain ⟨hdone, -⟩ := Prod.mk.inj hexec
      cases o with
      | mk result after =>
          cases hdone
          rcases fail_spec huses ho with ⟨-, hrefused⟩ | ⟨-, v, haccepts, -⟩
          · exact absurd rfl hrefused
          · exact ⟨v, haccepts⟩

/-- A move that settles a token is the step of a call for its claim. -/
theorem WebpageEvent.Does.settles (db db' : Database) {id token : Uuid} {move : Move} (h : e.Does a id move)
    (hsettles : move.settles = some token) :
    ∃ claim, Settles ⟨db, e, a, db'⟩ claim ∧ claim.documentId = id ∧ claim.token = token := by
  cases h with
  | deleteDocument => cases hsettles
  | call hdoes =>
      cases hdoes with
      | published =>
          cases hsettles
          exact ⟨_, .finish, rfl, rfl⟩
      | confirmed =>
          cases hsettles
          exact ⟨_, .finish, rfl, rfl⟩
      | failed =>
          cases hsettles
          exact ⟨_, .fail, rfl, rfl⟩
      | create => cases hsettles
      | enqueue => cases hsettles
      | setAutoSync => cases hsettles
      | claimCandidate => cases hsettles

/-- A claiming step made the move of its claim. -/
theorem Claims.does {st : EventStep} {claim : WebpageClaim} {now : Time} (h : Claims st claim now)
    (hrun : WebpageEvent.Runs opens st.before st.call st.answer st.after) :
    Moves opens st.before claim.documentId (.claimed claim.token now) st.after := by
  rcases hrun.cases with ⟨-, hrefused⟩ | ⟨id, move, hdoes, hmove⟩
  · cases h
    cases hrefused
  · cases h
    cases hdoes with
    | call hdoes =>
        cases hdoes with
        | claimCandidate hid htoken =>
            subst hid
            subst htoken
            exact hmove

/-- A claiming move is the step of a claim. -/
theorem WebpageEvent.Does.claims (db db' : Database) {id token : Uuid} {now : Time}
    (h : e.Does a id (.claimed token now)) :
    ∃ claim, Claims ⟨db, e, a, db'⟩ claim now ∧ claim.documentId = id ∧ claim.token = token := by
  cases h with
  | call hdoes =>
      cases hdoes with
      | claimCandidate hid htoken => exact ⟨_, .turn, hid, htoken⟩

theorem WebpageEvent.Does.target_of_claims {target : Uuid} {move : Move} {claim : WebpageClaim}
    {now : Time} (h : e.Does a target move) (hclaims : Claims ⟨db, e, a, db'⟩ claim now) :
    target = claim.documentId ∧ move = .claimed claim.token now := by
  cases hclaims
  cases h with
  | call hdoes =>
      cases hdoes with
      | claimCandidate hid htoken => exact ⟨hid.symm, by rw [htoken]⟩

theorem WebpageEvent.Does.target_of_settles {target : Uuid} {move : Move} {claim : WebpageClaim}
    (h : e.Does a target move) (hsettles : Settles ⟨db, e, a, db'⟩ claim) :
    target = claim.documentId ∧ move.settles = some claim.token := by
  cases hsettles with
  | finish =>
      cases h with
      | call hdoes => cases hdoes <;> exact ⟨rfl, rfl⟩
  | fail =>
      cases h with
      | call hdoes => cases hdoes; exact ⟨rfl, rfl⟩

theorem Claims.accepted {st : EventStep} {claim : WebpageClaim} {now : Time}
    (h : Claims st claim now) : st.answer.accepted = true := by
  cases h
  rfl

theorem Settles.accepted {st : EventStep} {claim : WebpageClaim} (h : Settles st claim) :
    st.answer.accepted = true := by
  cases h <;> rfl

/-- An accepted turn of `claim` is a claim of its candidate. -/
theorem claims_of_accepted {cipher : PrivateDataCipher} (huses : cipher.Uses opens)
    (db : Database) {token documentId owner : Uuid} {now : Time}
    (ha : ((WebpageCall.claimCandidate cipher token now documentId owner).exec db).1.accepted
      = true) :
    ∃ claim, Claims
      ⟨db, .call (.claimCandidate cipher token now documentId owner),
        ((WebpageCall.claimCandidate cipher token now documentId owner).exec db).1,
        ((WebpageCall.claimCandidate cipher token now documentId owner).exec db).2⟩ claim now ∧
      claim.documentId = documentId ∧ claim.token = token := by
  generalize hexec : (WebpageCall.claimCandidate cipher token now documentId owner).exec db = o at ha
  have huses' : (WebpageCall.claimCandidate cipher token now documentId owner).cipher.Uses opens :=
    huses
  obtain ⟨a, db'⟩ := o
  rcases WebpageCall.step huses' hexec with ⟨-, hrefused⟩ | ⟨id, move, hdoes, -⟩
  · exact absurd (ha.symm.trans hrefused) (by decide)
  · cases hdoes with
    | claimCandidate hid htoken => exact ⟨_, .turn, hid, htoken⟩

/-! ## The ledger of claims -/

/-- The step neither claims the document nor takes it from this token. -/
def Spares (st : EventStep) (id token : Uuid) : Prop :=
  (∀ claim now, Claims st claim now → claim.documentId ≠ id) ∧
    (∀ claim, Settles st claim → claim.documentId = id → claim.token ≠ token) ∧
    ¬ Cancels st id token

/-- The latest claim of the document handed out this token, at this time, and nothing has
taken it since. -/
def LatestClaim (steps : List EventStep) (id token : Uuid) (at_ : Time) : Prop :=
  ∃ earlier st later claim, steps = earlier ++ st :: later ∧ Claims st claim at_ ∧
    claim.documentId = id ∧ claim.token = token ∧ ∀ st' ∈ later, Spares st' id token

/-- Every held row is held by the latest claim of its document. -/
def Ledger (steps : List EventStep) (db : Database) : Prop :=
  ∀ id v token, viewOf db id = some v → v.heldBy token →
    ∃ at_, v.page.claimedAt = some at_ ∧ LatestClaim steps id token at_

theorem LatestClaim.snoc {steps : List EventStep} {id token : Uuid} {at_ : Time}
    (h : LatestClaim steps id token at_) {st : EventStep} (hst : Spares st id token) :
    LatestClaim (steps ++ [st]) id token at_ := by
  obtain ⟨earlier, first, later, claim, rfl, hclaims, hid, htoken, hlater⟩ := h
  refine ⟨earlier, first, later ++ [st], claim, by simp, hclaims, hid, htoken, ?_⟩
  intro st' hmem
  rcases List.mem_append.mp hmem with hmem | hmem
  · exact hlater st' hmem
  · rw [List.mem_singleton.mp hmem]
    exact hst

/-- A refused step spares the claim of a row that stays held. -/
theorem spares_of_refused (db : Database) (e : WebpageEvent) {id token : Uuid} {v : PageView} (ha : a.accepted = false)
    (hv : viewOf db' id = some v) (hheld : v.heldBy token) : Spares ⟨db, e, a, db'⟩ id token := by
  refine ⟨fun claim now hclaims => ?_, fun claim hsettles => ?_,
    fun hcancels => hcancels.2.2 v hv hheld⟩
  · exact absurd (hclaims.accepted.symm.trans ha) (by decide)
  · exact absurd (hsettles.accepted.symm.trans ha) (by decide)

/-- A step elsewhere, or one that neither claims nor settles, spares the claim of a row that
stays held. -/
theorem spares_of_does (db : Database) {target id token : Uuid} {move : Move} {v : PageView}
    (hdoes : e.Does a target move)
    (hmove : target = id → move.settles = none ∧ ∀ next now, move ≠ .claimed next now)
    (hv : viewOf db' id = some v) (hheld : v.heldBy token) : Spares ⟨db, e, a, db'⟩ id token := by
  refine ⟨fun claim now hclaims hid => ?_, fun claim hsettles hid => ?_,
    fun hcancels => hcancels.2.2 v hv hheld⟩
  · obtain ⟨htarget, hclaimed⟩ := hdoes.target_of_claims hclaims
    exact absurd hclaimed ((hmove (htarget.trans hid)).2 _ _)
  · obtain ⟨htarget, hsome⟩ := hdoes.target_of_settles hsettles
    rw [(hmove (htarget.trans hid)).1] at hsome
    cases hsome

/-- The ledger is right after one more step. -/
theorem ledger_step {steps : List EventStep} (h : Ledger steps db)
    (hrun : WebpageEvent.Runs opens db e a db') :
    Ledger (steps ++ [⟨db, e, a, db'⟩]) db' := by
  intro id v' token hv' hheld
  rcases hrun.cases with ⟨hviews, ha⟩ | ⟨target, move, hdoes, hmove⟩
  · have hspares := spares_of_refused db e ha hv' hheld
    rw [hviews] at hv'
    obtain ⟨at_, hat, hlatest⟩ := h id v' token hv' hheld
    exact ⟨at_, hat, hlatest.snoc hspares⟩
  by_cases hid : target = id
  · subst hid
    have hrows := hmove.rows
    rw [hv'] at hrows
    rcases heldBy_after hrows hheld with ⟨now, rfl, hat⟩ |
      ⟨v, autoSync, now, hv, rfl, hheldBefore, hat⟩
    · -- the step itself is the latest claim
      obtain ⟨claim, hclaims, hclaimId, htoken⟩ := hdoes.claims db db'
      exact ⟨now, hat, steps, _, [], claim, rfl, hclaims, hclaimId, htoken, by simp⟩
    · obtain ⟨at_, hat', hlatest⟩ := h target v token hv hheldBefore
      refine ⟨at_, hat.trans hat', hlatest.snoc (spares_of_does db hdoes ?_ hv' hheld)⟩
      exact fun _ => ⟨rfl, fun _ _ hne => by cases hne⟩
  · have hspares := spares_of_does db hdoes (fun h => absurd h hid) hv' hheld
    rw [hmove.others id (Ne.symm hid)] at hv'
    obtain ⟨at_, hat, hlatest⟩ := h id v' token hv' hheld
    exact ⟨at_, hat, hlatest.snoc hspares⟩

end Steps

section Runs

variable {opens : Opens} {start db : Database} {steps : List EventStep}

/-- The ledger is right in every run that starts without webpage documents. -/
theorem ledger_holds (hstart : start.webpages.rows = [])
    (h : Trace (WebpageEvent.Runs opens) start steps db) : Ledger steps db := by
  induction h with
  | nil =>
      intro id v token hv
      exact (Everywhere.of_noWebpages (I := fun _ => False) hstart id v hv).elim
  | snoc _ hrun ih => exact ledger_step ih hrun

/-- A settling step settles the latest claim of its document. -/
theorem latest_of_settles (hstart : start.webpages.rows = []) {earlier : List EventStep}
    {st : EventStep} (hearlier : Trace (WebpageEvent.Runs opens) start earlier st.before)
    (hrun : WebpageEvent.Runs opens st.before st.call st.answer st.after) {claim : WebpageClaim}
    (hsettles : Settles st claim) :
    ∃ at_, LatestClaim earlier claim.documentId claim.token at_ := by
  obtain ⟨v, haccepts⟩ := hsettles.accepts hrun
  obtain ⟨at_, -, hlatest⟩ :=
    ledger_holds hstart hearlier claim.documentId v claim.token haccepts.view haccepts.held
  exact ⟨at_, hlatest⟩

/-- A claim is settled at most once. -/
theorem settled_once (hstart : start.webpages.rows = []) {earlier mid later : List EventStep}
    {st st' : EventStep} (htokens : TokensFresh (earlier ++ st :: mid ++ st' :: later))
    (h : Trace (WebpageEvent.Runs opens) start (earlier ++ st :: mid ++ st' :: later) db)
    {claim claim' : WebpageClaim} (htoken : claim'.token = claim.token)
    (hsettles : Settles st claim) : ¬ Settles st' claim' := by
  intro hsettles'
  obtain ⟨hstart', hrun', -⟩ := h.split_at
  obtain ⟨hearlier, hrun, -⟩ := hstart'.split_at
  obtain ⟨at_, pre, first, between, k, hpre, hclaims, hid, hk, hspares⟩ :=
    latest_of_settles hstart hearlier hrun hsettles
  obtain ⟨at', pre', first', between', k', hpre', hclaims', hid', hk', hspares'⟩ :=
    latest_of_settles hstart hstart' hrun' hsettles'
  -- both were handed out by the same step, and the first settlement lies after it
  have hfirst : pre ++ first :: (between ++ st :: mid) = pre' ++ first' :: between' := by
    rw [← hpre', hpre]
    simp
  have hnodup : ((pre ++ first :: (between ++ st :: mid)).filterMap claimedToken).Nodup := by
    rw [hfirst, ← hpre']
    exact htokens.sublist ((List.sublist_append_left _ _).filterMap claimedToken)
  obtain ⟨-, rfl, hbetween⟩ := eq_of_mark hfirst (hclaims.token.trans (congrArg some hk))
    (hclaims'.token.trans (congrArg some (hk'.trans htoken))) hnodup
  obtain ⟨rfl, -⟩ := hclaims.unique hclaims'
  have hmem : st ∈ between' := by
    rw [← hbetween]
    exact List.mem_append_right _ List.mem_cons_self
  exact (hspares' st hmem).2.1 claim hsettles (hid.symm.trans hid') htoken.symm

/-! ## Leases -/

/-- What a claim at `at_` may have come to: its document is gone, or it still holds the row,
or the document was claimed again after the lease. -/
def LeaseStands (id token : Uuid) (at_ : Time) (steps : List EventStep) (db : Database) : Prop :=
  viewOf db id = none ∨
    (∃ v, viewOf db id = some v ∧ v.heldBy token ∧ v.page.claimedAt = some at_) ∨
    ∃ st ∈ steps, ∃ claim now, Claims st claim now ∧ claim.documentId = id ∧
      at_ + claimLease < now

/-- A due row that is running was claimed more than a lease ago. -/
theorem lease_of_due {now at_ : Time} {v : PageView} {token : Uuid} (hdue : due now v.page = true)
    (hheld : v.heldBy token) (hat : v.page.claimedAt = some at_) : at_ + claimLease < now := by
  have hrunning := hheld.1
  have hexpired : at_ < now - claimLease := by
    simpa [due, hrunning, hat] using hdue
  exact Int.add_lt_of_lt_sub_right hexpired

/-- A lease stands until its claim is settled or cancelled or its document is registered anew: no
step of another worker takes it before it has run out. -/
theorem leaseStands_step {id token : Uuid} {at_ : Time} {db' : Database} {e : WebpageEvent}
    {a : WebpageAnswer} (h : LeaseStands id token at_ steps db)
    (hrun : WebpageEvent.Runs opens db e a db')
    (hregisters : ¬ Registers ⟨db, e, a, db'⟩ id)
    (hsettles : ∀ claim, claim.documentId = id → claim.token = token →
      ¬ Settles ⟨db, e, a, db'⟩ claim)
    (hcancels : ¬ Cancels ⟨db, e, a, db'⟩ id token) :
    LeaseStands id token at_ (steps ++ [⟨db, e, a, db'⟩]) db' := by
  rcases h with hnone | ⟨v, hv, hheld, hat⟩ | ⟨st, hst, hclaims⟩
  · -- the document is gone, and was not registered again
    left
    rcases hrun.cases with ⟨hviews, -⟩ | ⟨target, move, hdoes, hmove⟩
    · rw [hviews, hnone]
    by_cases hid : target = id
    · subst hid
      have hrows := hmove.rows
      rw [hnone] at hrows
      generalize viewOf db' target = after at hrows
      cases hrows with
      | created =>
          refine absurd ?_ hregisters
          cases hdoes with
          | call hdoes =>
              cases hdoes
              exact ⟨_, _, _, _, _, _, _, _, _, rfl, rfl⟩
    · rw [hmove.others id (Ne.symm hid), hnone]
  · rcases hrun.cases with ⟨hviews, -⟩ | ⟨target, move, hdoes, hmove⟩
    · exact .inr (.inl ⟨v, (hviews id).trans hv, hheld, hat⟩)
    by_cases hid : target = id
    · subst hid
      have hrows := hmove.rows
      rw [hv] at hrows
      rcases heldBy_before hrows hheld with ⟨v', autoSync, now, hv', rfl, hwork⟩ |
        ⟨next, now, rfl, hdue⟩ | hsettled | hgone
      · rcases hwork with ⟨hheld', hat'⟩ | ⟨rfl, hlost⟩
        · exact .inr (.inl ⟨v', hv', hheld', hat'.trans hat⟩)
        · refine absurd ⟨?_, ⟨v, hv, hheld⟩, ?_⟩ hcancels
          · cases hdoes with
            | call hdoes =>
                cases hdoes
                exact ⟨_, _, _, rfl⟩
          · intro w hw
            rw [hv'] at hw
            cases hw
            exact hlost
      · obtain ⟨claim, hclaims, hclaimId, -⟩ := hdoes.claims db db'
        exact .inr (.inr ⟨_, List.mem_append_right _ List.mem_cons_self, claim, now, hclaims,
          hclaimId, lease_of_due hdue hheld hat⟩)
      · obtain ⟨claim, hsettles', hclaimId, htoken⟩ := hdoes.settles db db' hsettled
        exact absurd hsettles' (hsettles claim hclaimId htoken)
      · exact .inl hgone
    · exact .inr (.inl ⟨v, (hmove.others id (Ne.symm hid)).trans hv, hheld, hat⟩)
  · exact .inr (.inr ⟨st, List.mem_append_left _ hst, hclaims⟩)

/-- A stretch of a run that neither settles nor cancels a claim, nor registers its document
anew. -/
theorem leaseStands_run {id token : Uuid} {at_ : Time} {s s' : Database} {mid : List EventStep}
    (h : Trace (WebpageEvent.Runs opens) s mid s') (hinit : LeaseStands id token at_ [] s)
    (hmid : ∀ st ∈ mid, ¬ Registers st id ∧ (∀ claim, claim.documentId = id →
      claim.token = token → ¬ Settles st claim) ∧ ¬ Cancels st id token) :
    LeaseStands id token at_ mid s' := by
  induction h with
  | nil => exact hinit
  | snoc _ hrun ih =>
      obtain ⟨hregisters, hsettles, hcancels⟩ :=
        hmid _ (List.mem_append_right _ List.mem_cons_self)
      refine leaseStands_step (ih ?_) hrun hregisters hsettles hcancels
      exact fun st hst => hmid st (List.mem_append_left _ hst)

/-- Readings of a run are in order. -/
theorem ClockMonotone.le {first rest : List EventStep} {st st' : EventStep} {now now' : Time}
    (h : ClockMonotone (first ++ st :: rest)) (hst' : st' ∈ rest) (hnow : st.call.time = some now)
    (hnow' : st'.call.time = some now') : now ≤ now' := by
  unfold ClockMonotone at h
  rw [List.filterMap_append,
    List.filterMap_cons_some (f := fun st : EventStep => st.call.time) hnow] at h
  have hrest := (List.pairwise_append.mp h).2.1
  exact (List.pairwise_cons.mp hrest).1 now' (List.mem_filterMap.mpr ⟨st', hst', hnow'⟩)

/-- Two claims of one document, the first neither settled nor cancelled in between, are more
than a lease apart. -/
theorem claims_apart {earlier mid later : List EventStep} {st st' : EventStep}
    (hclock : ClockMonotone (earlier ++ st :: mid ++ st' :: later))
    (h : Trace (WebpageEvent.Runs opens) start (earlier ++ st :: mid ++ st' :: later) db)
    {claim claim' : WebpageClaim} {now now' : Time} (hclaims : Claims st claim now)
    (hclaims' : Claims st' claim' now') (hid : claim'.documentId = claim.documentId)
    (hmid : ∀ st ∈ mid, ¬ Registers st claim.documentId ∧ (∀ k, k.documentId = claim.documentId →
      k.token = claim.token → ¬ Settles st k) ∧ ¬ Cancels st claim.documentId claim.token) :
    now + claimLease < now' := by
  obtain ⟨hstart', hrun', -⟩ := h.split_at
  obtain ⟨-, hrun, hstretch⟩ := hstart'.split_at
  obtain ⟨v, -, -, hv⟩ := (hclaims.does hrun).of_claimed
  have hinit : LeaseStands claim.documentId claim.token now [] st.after :=
    .inr (.inl ⟨_, hv, ⟨rfl, rfl⟩, rfl⟩)
  obtain ⟨w, hw, hdue, -⟩ := (hclaims'.does hrun').of_claimed
  rw [hid] at hw
  rcases leaseStands_run hstretch hinit hmid with hnone | ⟨v', hv', hheld, hat⟩ |
    ⟨again, hagain, k, at_, hk, -, hlease⟩
  · rw [hnone] at hw
    cases hw
  · rw [hv'] at hw
    cases hw
    exact lease_of_due hdue hheld hat
  · obtain ⟨first, rest, rfl⟩ := List.append_of_mem hagain
    have horder : at_ ≤ now' := by
      have hclock' : ClockMonotone ((earlier ++ st :: first) ++ again :: (rest ++ st' :: later)) := by
        simpa using hclock
      have hmem : st' ∈ rest ++ st' :: later := List.mem_append_right _ List.mem_cons_self
      exact hclock'.le hmem hk.time hclaims'.time
    exact lt_of_lt_of_le hlease horder

/-- Whatever workers and users do, in any order of transactions, with claim tokens never
repeated and a clock that never goes back: two claims of one document are more than a lease
apart unless the first was settled or cancelled between them; a claim is settled at most
once; only the latest claim of an existing document of an active owner is settled, and only
while it was not cancelled; and a refused `finish` or `fail` changes nothing. -/
theorem claims_exclusive (hstart : start.webpages.rows = []) (htokens : TokensFresh steps)
    (hclock : ClockMonotone steps) (h : Trace (WebpageEvent.Runs opens) start steps db) :
    (∀ earlier st mid st' later claim claim' now now',
      steps = earlier ++ st :: mid ++ st' :: later →
      Claims st claim now → Claims st' claim' now' → claim'.documentId = claim.documentId →
      (∀ st ∈ mid, ¬ Registers st claim.documentId) →
      (∀ st ∈ mid, ∀ k, k.documentId = claim.documentId → k.token = claim.token →
        ¬ Settles st k) →
      (∀ st ∈ mid, ¬ Cancels st claim.documentId claim.token) →
      now + claimLease < now') ∧
    (∀ earlier st mid st' later claim claim', steps = earlier ++ st :: mid ++ st' :: later →
      claim'.token = claim.token → Settles st claim → ¬ Settles st' claim') ∧
    (∀ earlier st later claim, steps = earlier ++ st :: later → Settles st claim →
      (∃ v, viewOf st.before claim.documentId = some v ∧ v.document.userId = claim.userId) ∧
      claim.userId ∉ st.before.erasedOwners ∧
      ∃ at_, LatestClaim earlier claim.documentId claim.token at_) ∧
    (∀ st ∈ steps, ((∃ cipher uuid4 now claim content contentHash chunks embeddings,
        st.call = .call (.finish cipher uuid4 now claim content contentHash chunks embeddings)) ∨
        ∃ cipher now claim error, st.call = .call (.fail cipher now claim error)) →
      st.answer = .done (.ok false) → st.after = st.before) := by
  refine ⟨?_, ?_, ?_, ?_⟩
  · rintro earlier st mid st' later claim claim' now now' rfl hclaims hclaims' hid hregisters
      hsettles hcancels
    exact claims_apart hclock h hclaims hclaims' hid
      (fun st hst => ⟨hregisters st hst, hsettles st hst, hcancels st hst⟩)
  · rintro earlier st mid st' later claim claim' rfl htoken hsettles
    exact settled_once hstart htokens h htoken hsettles
  · rintro earlier st later claim rfl hsettles
    obtain ⟨hearlier, hrun, -⟩ := h.split_at
    obtain ⟨v, haccepts⟩ := hsettles.accepts hrun
    exact ⟨⟨v, haccepts.view, haccepts.owner⟩, haccepts.active,
      latest_of_settles hstart hearlier hrun hsettles⟩
  · rintro st hst hcall hanswer
    obtain ⟨c, hc⟩ : ∃ c, st.call = .call c := by
      rcases hcall with ⟨_, _, _, _, _, _, _, _, hcall⟩ | ⟨_, _, _, _, hcall⟩ <;> exact ⟨_, hcall⟩
    obtain ⟨huses, hexec⟩ := h.step_of_mem hst
    rw [hc] at hexec
    rcases c.step (huses c hc) hexec with ⟨hdb, -⟩ | ⟨id, move, hdoes, -⟩
    · exact hdb
    · rw [hanswer] at hdoes
      cases hdoes

end Runs

/-! ## A sample run -/

/-- Document 7 is registered and claimed; the lease runs out and it is claimed again. -/
def sampleEvents : List WebpageEvent :=
  [.call (.create clearCipher ⟨.ok, id⟩ 7 0 1 "key" none ["u"] true),
    .call (.claimCandidate clearCipher 9 10 7 1),
    .call (.claimCandidate clearCipher 11 900000011 7 1)]

/-- The run of these events. -/
def sampleLeases : List EventStep × Database := run WebpageEvent.exec .empty sampleEvents

theorem sampleLeases_trace :
    Trace (WebpageEvent.Runs clearOpens) .empty sampleLeases.1 sampleLeases.2 := by
  refine run_trace ?_
  intro e he db
  refine ⟨?_, rfl⟩
  rintro c rfl
  simp only [sampleEvents, List.mem_cons, List.not_mem_nil, or_false, WebpageEvent.call.injEq] at he
  rcases he with rfl | rfl | rfl <;> exact clearCipher_uses

theorem claims_exclusive_sample : (10 : Time) + claimLease < 900000011 := by
  have htokens : TokensFresh sampleLeases.1 := by
    unfold TokensFresh
    decide +kernel
  have hclock : ClockMonotone sampleLeases.1 := by
    unfold ClockMonotone
    decide +kernel
  obtain ⟨hapart, -⟩ := claims_exclusive rfl htokens hclock sampleLeases_trace
  have hfirst : ((WebpageCall.claimCandidate clearCipher 9 10 7 1).exec
      (run WebpageEvent.exec .empty (sampleEvents.take 1)).2).1.accepted = true := by
    decide +kernel
  have hsecond : ((WebpageCall.claimCandidate clearCipher 11 900000011 7 1).exec
      (run WebpageEvent.exec .empty (sampleEvents.take 2)).2).1.accepted = true := by
    decide +kernel
  obtain ⟨claim, hclaims, hid, -⟩ := claims_of_accepted clearCipher_uses _ hfirst
  obtain ⟨claim', hclaims', hid', -⟩ := claims_of_accepted clearCipher_uses _ hsecond
  exact hapart (run WebpageEvent.exec .empty (sampleEvents.take 1)).1 _ [] _ [] claim claim' 10
    900000011 rfl hclaims hclaims' (hid'.trans hid.symm)
    (by simp) (by simp) (by simp)

end PortRag.Webpages
