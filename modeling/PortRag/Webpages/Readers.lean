import PortRag.Foundation.Ranking
import PortRag.Foundation.RowLocks
import PortRag.Webpages.Leases

set_option autoImplicit false

/-!
# Chunk previews among other transactions

`WebpageRepository.get_chunks` statement by statement.  Every statement reads what is
committed when it runs; between two of them any other transaction may commit.  A preview
holds its webpage and document rows for share from its second statement on, a transaction
that changes rows of a document holds them for update from its own first read on, and what
it changes is seen by others when it commits.

A transaction that locks no row (it registers a new document, finds none of its own, passes
over one that is not due, or was refused) is one step: it changes no row that exists.  A claim
that skips a locked row changes nothing and is no step.
-/

namespace PortRag.Webpages

open PortRag.Foundation PortRag.Db PortRag.Security PortRag.Http PortRag.Ingest

/-- The arguments of a `get_chunks`, with the decryption service during it. -/
structure PreviewRequest where
  cipher : PrivateDataCipher
  documentId : Uuid
  userId : Uuid
  offset : Nat
  limit : Nat

/-- How far a `get_chunks` has come: its transaction is open, `lock_active_owner` has
returned, the rows are held for share, the chunks are counted. -/
inductive Progress where
  | started
  | admitted
  | holding
  | counted (total : Nat)

/-- A transaction: of a preview, or of `e` with the rows of a document held for update. -/
inductive Session where
  | unopened
  | reading (q : PreviewRequest) (progress : Progress)
  | writing (e : WebpageEvent) (documentId : Uuid)
  | ended

/-- The row that a transaction holds. -/
def Session.held : Session → Option (LockMode × Uuid)
  | .reading q .holding => some (.share, q.documentId)
  | .reading q (.counted _) => some (.share, q.documentId)
  | .writing _ documentId => some (.update, documentId)
  | _ => none

/-- What is committed, and the transactions. -/
structure Floor where
  db : Database
  sessions : Nat → Session

/-- The floor after transaction `i` has come to `session`. -/
def Floor.put (s : Floor) (i : Nat) (session : Session) : Floor :=
  { s with sessions := Function.update s.sessions i session }

/-- The rows held on the floor. -/
def Floor.locks (s : Floor) : Locked Database Nat Uuid := ⟨s.db, fun i => (s.sessions i).held⟩

/-- The document that a transaction selects, and as whose. -/
def WebpageEvent.target : WebpageEvent → Option (Uuid × Uuid)
  | .call (.create ..) => none
  | .call (.enqueue _ _ documentId userId) => some (documentId, userId)
  | .call (.setAutoSync _ _ documentId userId _) => some (documentId, userId)
  | .call (.claimCandidate _ _ _ documentId owner) => some (documentId, owner)
  | .call (.finish _ _ _ claim _ _ _ _) => some (claim.documentId, claim.userId)
  | .call (.fail _ _ claim _) => some (claim.documentId, claim.userId)
  | .deleteDocument documentId userId => some (documentId, userId)
  | .fence _ => none

/-- The further condition of its select: a claim takes due rows only. -/
def WebpageEvent.takes : WebpageEvent → DocumentWebpage → Bool
  | .call (.claimCandidate _ _ now _ _), page => due now page
  | _, _ => true

/-- The row that the select of a transaction locks on these rows. -/
def WebpageEvent.lockedRow (e : WebpageEvent) (db : Database) : Option Uuid :=
  e.target.bind (fun t =>
    if t.2 ∉ db.erasedOwners ∧ (select db t.1 t.2).any (fun rows => e.takes rows.2) = true then
      some t.1
    else none)

/-- The chunks of a publication carry different numbers, as the worker makes them. -/
def WebpageEvent.Distinct (e : WebpageEvent) : Prop :=
  ∀ cipher uuid4 now claim content contentHash chunks embeddings,
    e = .call (.finish cipher uuid4 now claim content contentHash (some chunks) embeddings) →
      (chunks.map (·.seq)).Nodup

/-- What happens next: a statement of transaction `i`, its end without a result, or a
transaction that locks nothing. -/
inductive Turn where
  | opens (i : Nat) (q : PreviewRequest)
  | admits (i : Nat)
  | holds (i : Nat)
  | counts (i : Nat)
  | pages (i : Nat)
  | locks (i : Nat) (e : WebpageEvent)
  | commits (i : Nat) (e : WebpageEvent)
  | abandons (i : Nat)
  | acts (e : WebpageEvent)

/-- What a turn returns to its caller. -/
inductive Response where
  | silent
  | preview (result : Except Exc (Option WebpageChunks))
  | written (a : WebpageAnswer)

/-- The result of `get_chunks` from its two reads. -/
def PreviewRequest.result (q : PreviewRequest) (total : Nat) (rows : List DocumentChunk) :
    Except Exc (Option WebpageChunks) :=
  (rows.mapM (readWebpageChunk q.cipher.privateData q.userId q.documentId)).map
    (fun chunks => some ⟨q.documentId, q.userId, chunks, total⟩)

/-- One turn.  Locking statements wait until the row is free and then read what is committed. -/
inductive Floor.Runs (opens : Opens) : Floor → Turn → Response → Floor → Prop where
  | opened {s : Floor} {i : Nat} {q : PreviewRequest} (hfresh : s.sessions i = .unopened)
      (huses : q.cipher.Uses opens) :
      Runs opens s (.opens i q) .silent (s.put i (.reading q .started))
  | admitted {s : Floor} {i : Nat} {q : PreviewRequest}
      (hat : s.sessions i = .reading q .started) (hlock : lockActiveOwner s.db q.userId = .ok ()) :
      Runs opens s (.admits i) .silent (s.put i (.reading q .admitted))
  | refused {s : Floor} {i : Nat} {q : PreviewRequest} {e : Exc}
      (hat : s.sessions i = .reading q .started)
      (hlock : lockActiveOwner s.db q.userId = .error e) :
      Runs opens s (.admits i) (.preview (.error e)) (s.put i .ended)
  | missed {s : Floor} {i : Nat} {q : PreviewRequest}
      (hat : s.sessions i = .reading q .admitted)
      (hselect : select s.db q.documentId q.userId = none) :
      Runs opens s (.holds i) (.preview (.ok none)) (s.put i .ended)
  | held {s : Floor} {i : Nat} {q : PreviewRequest} {rows : Document × DocumentWebpage}
      (hat : s.sessions i = .reading q .admitted)
      (hselect : select s.db q.documentId q.userId = some rows)
      (hgrants : s.locks.Grants i .share q.documentId) :
      Runs opens s (.holds i) .silent (s.put i (.reading q .holding))
  | counted {s : Floor} {i : Nat} {q : PreviewRequest}
      (hat : s.sessions i = .reading q .holding) :
      Runs opens s (.counts i) .silent
        (s.put i (.reading q (.counted (s.db.chunksOf q.documentId).length)))
  | paged {s : Floor} {i total : Nat} {q : PreviewRequest} {rows : List DocumentChunk}
      (hat : s.sessions i = .reading q (.counted total))
      (hpages : Pages (fun c : DocumentChunk => c.seq) q.offset q.limit
        (s.db.chunksOf q.documentId) rows) :
      Runs opens s (.pages i) (.preview (q.result total rows)) (s.put i .ended)
  | locked {s : Floor} {i : Nat} {e : WebpageEvent} {id : Uuid}
      (hfresh : s.sessions i = .unopened) (hrow : e.lockedRow s.db = some id)
      (hgrants : s.locks.Grants i .update id) :
      Runs opens s (.locks i e) .silent (s.put i (.writing e id))
  | committed {s : Floor} {i : Nat} {e : WebpageEvent} {id : Uuid} {a : WebpageAnswer}
      {db' : Database} (hat : s.sessions i = .writing e id) (hdistinct : e.Distinct)
      (hruns : e.Runs opens s.db a db') :
      Runs opens s (.commits i e) (.written a) { s.put i .ended with db := db' }
  | acted {s : Floor} {e : WebpageEvent} {a : WebpageAnswer} {db' : Database}
      (hrow : e.lockedRow s.db = none) (hdistinct : e.Distinct)
      (hruns : e.Runs opens s.db a db') :
      Runs opens s (.acts e) (.written a) { s with db := db' }
  | abandoned {s : Floor} {i : Nat} : Runs opens s (.abandons i) .silent (s.put i .ended)

/-- A recorded turn. -/
abbrev TurnStep := Step Floor Turn Response

/-! ## What a transaction finds -/

section Locks

variable {opens : Opens} {db db' : Database} {e : WebpageEvent} {a : WebpageAnswer}
  {documentId userId : Uuid}

theorem lockedRow_of_view {v : PageView} (htarget : e.target = some (documentId, userId))
    (hactive : userId ∉ db.erasedOwners) (hv : viewOf db documentId = some v)
    (howner : v.document.userId = userId) (htakes : e.takes v.page = true) :
    e.lockedRow db = some documentId := by
  simp [WebpageEvent.lockedRow, htarget, hactive, select_of_viewOf hv howner, htakes]

theorem view_of_lockedRow (h : e.lockedRow db = some documentId) :
    (viewOf db documentId).isSome ∧ ∃ userId, e.target = some (documentId, userId) := by
  obtain ⟨⟨id, userId⟩, htarget, h⟩ := Option.bind_eq_some_iff.mp h
  obtain ⟨⟨-, hany⟩, hid⟩ := Option.ite_none_right_eq_some.mp h
  cases hid
  obtain ⟨⟨document, page⟩, hselect, -⟩ := (Option.any_eq_true _ _).mp hany
  refine ⟨?_, userId, htarget⟩
  rw [(select_eq_some_iff.mp hselect).2]
  rfl

/-- A transaction that selects a document and locks no row leaves every row alone. -/
theorem exec_of_unlocked (hruns : e.Runs opens db a db')
    (htarget : e.target = some (documentId, userId)) (hrow : e.lockedRow db = none) (id : Uuid) :
    viewOf db' id = viewOf db id := by
  have hfound : ∀ {v : PageView}, userId ∉ db.erasedOwners → viewOf db documentId = some v →
      v.document.userId = userId → e.takes v.page = true → False := by
    intro v hactive hv howner htakes
    rw [lockedRow_of_view htarget hactive hv howner htakes] at hrow
    cases hrow
  obtain ⟨huses, hexec⟩ := hruns
  cases e with
  | fence => cases htarget
  | deleteDocument documentId userId =>
      cases htarget
      simp only [WebpageEvent.exec, deleteDocument] at hexec
      rcases Outcome.ofTransaction_cases db (deleteTransaction db documentId userId)
        with ⟨e, _, ho⟩ | ⟨deleted, _, ht, ho⟩
      · rw [ho] at hexec
        cases hexec
        rfl
      · rw [ho] at hexec
        cases hexec
        rw [viewOf_deleteTransaction ht]
        cases hv : viewOf db id with
        | none => rfl
        | some v =>
            refine Option.filter_eq_some_iff.mpr ⟨rfl, ?_⟩
            simp only [decide_not, Bool.not_eq_true', decide_eq_false_iff_not]
            rintro ⟨hid, howner⟩
            rw [← viewOf_document_id hv, hid] at hv
            exact hfound (deleteTransaction_ok ht).1 hv howner rfl
  | call c =>
      cases c with
      | create => cases htarget
      | enqueue cipher now documentId userId =>
          cases htarget
          simp only [WebpageEvent.exec, WebpageCall.exec, enqueue] at hexec
          rcases Outcome.afterCommit_cases db (enqueueTransaction now db documentId userId)
            (committedDetail cipher.privateData) with ⟨e, _, ho⟩ | ⟨rows, _, ht, ho⟩
          · rw [ho] at hexec
            cases hexec
            rfl
          · rw [ho] at hexec
            cases hexec
            rcases enqueueTransaction_ok ht with ⟨_, rfl⟩ | ⟨v, hv, howner, _⟩
            · rfl
            · obtain ⟨_, hlock, _⟩ := bind_eq_ok.mp ht
              exact (hfound (lockActiveOwner_ok hlock) hv howner rfl).elim
      | setAutoSync cipher now documentId userId autoSync =>
          cases htarget
          simp only [WebpageEvent.exec, WebpageCall.exec, setAutoSync] at hexec
          rcases Outcome.afterCommit_cases db
            (setAutoSyncTransaction now db documentId userId autoSync)
            (committedDetail cipher.privateData) with ⟨e, _, ho⟩ | ⟨rows, _, ht, ho⟩
          · rw [ho] at hexec
            cases hexec
            rfl
          · rw [ho] at hexec
            cases hexec
            rcases setAutoSyncTransaction_ok ht with ⟨_, rfl⟩ | ⟨v, hv, howner, _⟩
            · rfl
            · obtain ⟨_, hlock, _⟩ := bind_eq_ok.mp ht
              exact (hfound (lockActiveOwner_ok hlock) hv howner rfl).elim
      | claimCandidate cipher token now documentId userId =>
          cases htarget
          simp only [WebpageEvent.exec, WebpageCall.exec, claimCandidate] at hexec
          rcases Outcome.ofTransaction_cases db
            (claimTransaction cipher.privateData token now db documentId userId)
            with ⟨e, _, ho⟩ | ⟨claim, _, ht, ho⟩
          · rw [ho] at hexec
            cases hexec
            rfl
          · rw [ho] at hexec
            cases hexec
            rcases claimTransaction_ok ht with ⟨_, rfl⟩ | ⟨v, urls, hactive, hv, howner, hdue, _⟩
            · rfl
            · exact (hfound hactive hv howner hdue).elim
      | finish cipher uuid4 now claim content contentHash chunks embeddings =>
          cases htarget
          simp only [WebpageEvent.exec, WebpageCall.exec] at hexec
          generalize ho : Webpages.finish _ _ _ _ _ _ _ _ _ = o at hexec
          cases hexec
          rcases finish_spec (huses _ rfl) ho with ⟨hdb, _⟩ | ⟨_, v, haccepts, _⟩
          · rw [hdb]
          · exact (hfound haccepts.active haccepts.view haccepts.owner rfl).elim
      | fail cipher now claim error =>
          cases htarget
          simp only [WebpageEvent.exec, WebpageCall.exec] at hexec
          generalize ho : Webpages.fail _ _ _ _ _ = o at hexec
          cases hexec
          rcases fail_spec (huses _ rfl) ho with ⟨hdb, _⟩ | ⟨_, v, haccepts, _⟩
          · rw [hdb]
          · exact (hfound haccepts.active haccepts.view haccepts.owner rfl).elim

/-- A transaction that locks no row leaves the rows that exist alone. -/
theorem unlocked_frame (hruns : e.Runs opens db a db') (hrow : e.lockedRow db = none) {id : Uuid}
    (hid : (viewOf db id).isSome) : viewOf db' id = viewOf db id := by
  cases htarget : e.target with
  | some target => exact exec_of_unlocked hruns htarget hrow id
  | none =>
      rcases hruns.cases with ⟨hviews, _⟩ | ⟨target, move, hdoes, hmove⟩
      · exact hviews id
      · by_cases hsame : id = target
        · -- only a registration selects nothing, and it finds its identifier unused
          subst hsame
          cases hdoes with
          | deleteDocument => cases htarget
          | call hcall =>
              cases hcall with
              | create =>
                  have hrows := hmove.rows
                  generalize viewOf db id = before at hrows hid
                  generalize viewOf db' id = after at hrows
                  cases hrows
                  cases hid
              | enqueue => cases htarget
              | setAutoSync => cases htarget
              | claimCandidate => cases htarget
              | published => cases htarget
              | confirmed => cases htarget
              | failed => cases htarget
        · exact hmove.others id hsame

/-- A transaction changes the rows of the document it selects, and no others. -/
theorem locked_frame (hruns : e.Runs opens db a db')
    (htarget : e.target = some (documentId, userId)) {id : Uuid} (hid : id ≠ documentId) :
    viewOf db' id = viewOf db id := by
  rcases hruns.cases with ⟨hviews, _⟩ | ⟨target, move, hdoes, hmove⟩
  · exact hviews id
  · refine hmove.others id fun hsame => hid ?_
    subst hsame
    cases hdoes with
    | deleteDocument =>
        cases htarget
        rfl
    | call hcall =>
        cases hcall with
        | create => cases htarget
        | claimCandidate hclaimed =>
            cases htarget
            rfl
        | enqueue => cases htarget; rfl
        | setAutoSync => cases htarget; rfl
        | published => cases htarget; rfl
        | confirmed => cases htarget; rfl
        | failed => cases htarget; rfl

end Locks

/-! ## Turns are lock steps -/

section Turns

variable {opens : Opens} {s s' : Floor} {turn : Turn} {answer : Response}

@[simp] theorem Floor.put_db (s : Floor) (i : Nat) (session : Session) :
    (s.put i session).db = s.db := rfl

theorem Floor.put_sessions (s : Floor) (i : Nat) (session : Session) (j : Nat) :
    (s.put i session).sessions j = if j = i then session else s.sessions j :=
  Function.update_apply _ _ _ _

theorem Floor.put_self (s : Floor) (i : Nat) (session : Session) :
    (s.put i session).sessions i = session := by
  rw [Floor.put_sessions, if_pos rfl]

theorem Floor.put_of_ne (s : Floor) {i j : Nat} (session : Session) (h : j ≠ i) :
    (s.put i session).sessions j = s.sessions j := by
  rw [Floor.put_sessions, if_neg h]

theorem Floor.put_held (s : Floor) (i : Nat) (session : Session) :
    (fun j => ((s.put i session).sessions j).held) =
      Function.update s.locks.held i session.held := by
  funext j
  rw [Floor.put_sessions, Function.update_apply]
  split <;> rfl

theorem Floor.locks_put (s : Floor) (i : Nat) (session : Session) :
    (s.put i session).locks = ⟨s.db, Function.update s.locks.held i session.held⟩ := by
  rw [Floor.locks, Floor.put_held, Floor.put_db]

/-- Every writing transaction holds the document that it selects. -/
def Floor.Selected (s : Floor) : Prop :=
  ∀ i e id, s.sessions i = .writing e id → ∃ userId, e.target = some (id, userId)

theorem Floor.Selected.put (hs : s.Selected) {i : Nat} {session : Session}
    (hsession : ∀ e id, session = .writing e id → ∃ userId, e.target = some (id, userId)) :
    (s.put i session).Selected := by
  intro j e id hj
  rw [Floor.put_sessions] at hj
  split at hj
  · exact hsession e id hj
  · exact hs j e id hj

theorem selected_step (h : Floor.Runs opens s turn answer s') (hs : s.Selected) :
    s'.Selected := by
  cases h with
  | locked _ hrow =>
      refine hs.put fun e id hwriting => ?_
      cases hwriting
      exact (view_of_lockedRow hrow).2
  | acted => exact hs
  | committed => exact hs.put (fun _ _ hwriting => (by cases hwriting))
  | _ => exact hs.put (fun _ _ hwriting => (by cases hwriting))

/-- A turn is a step of the locking discipline, so what that promises about held rows holds of
previews. -/
theorem Floor.Runs.lockStep (h : Floor.Runs opens s turn answer s') (hs : s.Selected) :
    LockStep viewOf s.locks s'.locks := by
  cases h with
  | held _ hselect hgrants =>
      rw [Floor.locks_put]
      refine .acquire ?_ hgrants
      have hview := (select_eq_some_iff.mp hselect).2
      exact Option.isSome_iff_exists.mpr ⟨_, hview⟩
  | locked _ hrow hgrants =>
      rw [Floor.locks_put]
      exact .acquire (view_of_lockedRow hrow).1 hgrants
  | @counted i q hat =>
      -- the preview goes on holding what it held
      have hheld : s.locks.held i = some (.share, q.documentId) := by
        simp [Floor.locks, hat, Session.held]
      rw [Floor.locks_put]
      change LockStep viewOf s.locks ⟨s.db, Function.update s.locks.held i (some (.share, q.documentId))⟩
      rw [← hheld, Function.update_eq_self]
      exact .read
  | @committed i e id a db' hat _ hruns =>
      obtain ⟨userId, htarget⟩ := hs i e id hat
      have hheld : s.locks.held i = some (.update, id) := by
        simp [Floor.locks, hat, Session.held]
      have hlocks : Floor.locks { s.put i .ended with db := db' } =
          ⟨db', Function.update s.locks.held i none⟩ := by
        rw [Floor.locks, Floor.put_held]
        rfl
      rw [hlocks]
      exact .commit hheld (fun other hother => locked_frame hruns htarget hother)
  | acted hrow _ hruns => exact .insert (fun id hid => unlocked_frame hruns hrow hid)
  | _ =>
      rw [Floor.locks_put]
      exact .release

/-- The locks of a floor are sound, and every writing transaction selected what it holds. -/
structure Floor.Sound (s : Floor) : Prop where
  locks : s.locks.Sound viewOf
  selected : s.Selected

theorem Floor.Sound.step (hs : s.Sound) (h : Floor.Runs opens s turn answer s') : s'.Sound :=
  ⟨(h.lockStep hs.selected).sound hs.locks, selected_step h hs.selected⟩

theorem Floor.Sound.of_unopened (h : ∀ i, s.sessions i = .unopened) : s.Sound := by
  refine ⟨Locked.sound_of_free fun i => ?_, fun i e id hi => ?_⟩
  · simp [Floor.locks, h i, Session.held]
  · rw [h i] at hi
    cases hi

/-- What a transaction holds before and after a turn is as it was. -/
theorem Floor.Sound.unchanged (hs : s.Sound) (h : Floor.Runs opens s turn answer s') {i : Nat}
    {mode mode' : LockMode} {id : Uuid} (hbefore : (s.sessions i).held = some (mode, id))
    (hafter : (s'.sessions i).held = some (mode', id)) : viewOf s'.db id = viewOf s.db id :=
  (h.lockStep hs.selected).unchanged hs.locks hbefore hafter

end Turns

end PortRag.Webpages
