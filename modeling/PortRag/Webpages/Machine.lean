import PortRag.Webpages.Repository

set_option autoImplicit false

/-!
# The page machine

What may happen to the rows of one webpage document, told without transactions, tables or
locks: a state is the document row with its webpage row and its chunks, or nothing, and a
move is what one accepted call does to it.  `Transitions` shows that every method of the
repository makes such a move or leaves the database alone.

Three invariants of the machine carry the results about runs: `Published` ties hash,
content, chunks and status together, `Scheduled` ties status, sync status and queue reason
together, and `Leased` ties sync status and claim together.
-/

namespace PortRag.Webpages

open PortRag.Foundation PortRag.Db PortRag.Security PortRag.Http PortRag.Ingest

/-- The rows of one webpage document. -/
structure PageView where
  document : Document
  page : DocumentWebpage
  chunks : List DocumentChunk
  deriving Inhabited

namespace PageView

/-- The binding of a field of this document. -/
def binding (v : PageView) (field : String) : StorageBinding :=
  ⟨v.document.userId.str, v.document.id.str, field⟩

/-- The view after an update of the document row and the webpage row. -/
def withRows (v : PageView) (rows : Document × DocumentWebpage) : PageView :=
  { v with document := rows.1, page := rows.2 }

@[simp] theorem withRows_document (v : PageView) (rows : Document × DocumentWebpage) :
    (v.withRows rows).document = rows.1 := rfl

@[simp] theorem withRows_page (v : PageView) (rows : Document × DocumentWebpage) :
    (v.withRows rows).page = rows.2 := rfl

@[simp] theorem withRows_chunks (v : PageView) (rows : Document × DocumentWebpage) :
    (v.withRows rows).chunks = v.chunks := rfl

/-- Whether the row is running under this token. -/
def heldBy (v : PageView) (token : Uuid) : Prop :=
  v.page.syncStatus = .running ∧ v.page.claimToken = some token

/-- The rows after a publication. -/
def published (v : PageView) (stored contentHash : String) (rows : List DocumentChunk)
    (now : Time) : PageView where
  document := { v.document with status := .ready, error := none, updatedAt := now }
  page := closed now (some true) none { v.page with
    content := stored
    contentHash := some contentHash
    syncStatus := .idle }
  chunks := rows

/-- The rows after a sync that found nothing new. -/
def confirmed (v : PageView) (now : Time) : PageView where
  document := { v.document with status := .ready, error := none, updatedAt := now }
  page := closed now (some false) none { v.page with syncStatus := .idle }
  chunks := v.chunks

/-- The rows after a failed sync; `documentError` counts only before the first
publication. -/
def failed (v : PageView) (documentError syncError : String) (now : Time) : PageView where
  document :=
    if v.page.contentHash = none then
      { v.document with status := .failed, error := some documentError, updatedAt := now }
    else { v.document with updatedAt := now }
  page := closed now none (some syncError) { v.page with syncStatus := .failed }
  chunks := v.chunks

end PageView

/-- The arguments of a publication. -/
structure Publication where
  content : String
  contentHash : String
  chunks : List IngestChunk
  embeddings : List Embedding
  deriving Inhabited

/-- The moves, each with what the caller brought along. -/
inductive Move where
  | created
  | enqueued
  | switched (autoSync : Bool) (now : Time)
  | claimed (token : Uuid) (now : Time)
  | published (token : Uuid) (args : Publication)
  | confirmed (token : Uuid) (contentHash : String)
  | failed (token : Uuid)
  | deleted

/-- The content and the chunks of the view are those of a publication. -/
structure PageView.Holds (opens : Opens) (v : PageView) (args : Publication) : Prop where
  contentHash : v.page.contentHash = some args.contentHash
  content : TextStands opens v.page.content (v.binding "webpage:content") args.content
  chunks : RowsStand opens v.document.userId.str v.document.id args.chunks args.embeddings v.chunks

/-- The rows that registration adds. -/
structure PageView.New (opens : Opens) (v : PageView) : Prop where
  status : v.document.status = .processing
  error : v.document.error = none
  page : v.page = newWebpage v.document.id v.page.urls v.page.content v.page.autoSync
  chunks : v.chunks = []
  name : ∃ name, TextStands opens v.document.name (v.binding "document:name") name
  urls : ∃ urls, UrlsStand opens v.document.userId.str v.document.id.str v.page.urls urls
  content : TextStands opens v.page.content (v.binding "webpage:content") ""

/-- `PageMove opens before move after`: one accepted call. -/
inductive PageMove (opens : Opens) : Option PageView → Move → Option PageView → Prop where
  | created {v : PageView} (hnew : v.New opens) : PageMove opens none .created (some v)
  | enqueued {v : PageView} {now : Time} (hqueued : v.page.syncStatus ≠ .queued)
      (hrunning : v.page.syncStatus ≠ .running) :
      PageMove opens (some v) .enqueued (some (v.withRows (enqueued now v.document v.page)))
  | switched {v : PageView} {autoSync : Bool} {now : Time} :
      PageMove opens (some v) (.switched autoSync now)
        (some (v.withRows (autoSyncSet now v.document v.page autoSync)))
  | claimed {v : PageView} {token : Uuid} {now : Time} (hdue : due now v.page = true) :
      PageMove opens (some v) (.claimed token now)
        (some (v.withRows (claimed token now v.document v.page)))
  | published {v : PageView} {token : Uuid} {args : Publication} {stored : String}
      {rows : List DocumentChunk} {now : Time} (hheld : v.heldBy token)
      (hchanged : v.page.contentHash ≠ some args.contentHash) (hcontent : args.content ≠ "")
      (hchunks : args.chunks ≠ [])
      (hholds : (v.published stored args.contentHash rows now).Holds opens args) :
      PageMove opens (some v) (.published token args)
        (some (v.published stored args.contentHash rows now))
  | confirmed {v : PageView} {token : Uuid} {contentHash : String} {now : Time}
      (hheld : v.heldBy token) (hsame : v.page.contentHash = some contentHash) :
      PageMove opens (some v) (.confirmed token contentHash) (some (v.confirmed now))
  | failed {v : PageView} {token : Uuid} {documentError syncError error : String} {now : Time}
      (hheld : v.heldBy token)
      (hdocument : v.page.contentHash = none →
        TextStands opens documentError (v.binding "document:error") error)
      (hsync : TextStands opens syncError (v.binding "webpage:error") error) :
      PageMove opens (some v) (.failed token) (some (v.failed documentError syncError now))
  | deleted {v : PageView} : PageMove opens (some v) .deleted none

/-! ## Row changes, field by field -/

section Rows

variable {now : Time} {document : Document} {page : DocumentWebpage}

@[simp] theorem enqueued_page_contentHash :
    (enqueued now document page).2.contentHash = page.contentHash := rfl

@[simp] theorem enqueued_page_content :
    (enqueued now document page).2.content = page.content := rfl

@[simp] theorem enqueued_page_urls :
    (enqueued now document page).2.urls = page.urls := rfl

theorem enqueued_status : (enqueued now document page).1.status =
    if page.contentHash = none then .processing else document.status := by
  unfold enqueued
  split <;> rfl

theorem enqueued_error : (enqueued now document page).1.error =
    if page.contentHash = none then none else document.error := by
  unfold enqueued
  split <;> rfl

@[simp] theorem enqueued_userId : (enqueued now document page).1.userId = document.userId := by
  unfold enqueued
  split <;> rfl

@[simp] theorem enqueued_name : (enqueued now document page).1.name = document.name := by
  unfold enqueued
  split <;> rfl

/-- Switching auto-sync touches the switch, the schedule, and work it cancels. -/
theorem autoSyncSet_fields (now : Time) (document : Document) (page : DocumentWebpage)
    (autoSync : Bool) :
    let rows := autoSyncSet now document page autoSync
    rows.1.userId = document.userId ∧ rows.1.name = document.name ∧
      rows.1.status = document.status ∧ rows.1.error = document.error ∧
      rows.2.urls = page.urls ∧ rows.2.content = page.content ∧
      rows.2.contentHash = page.contentHash ∧ rows.2.syncError = page.syncError ∧
      rows.2.lastSyncedAt = page.lastSyncedAt ∧ rows.2.queueReason = page.queueReason := by
  unfold autoSyncSet
  dsimp only
  split
  · simp
  · split <;> simp

/-- Work goes on through a switch, or it was automatic and is cancelled. -/
theorem autoSyncSet_work (now : Time) (document : Document) (page : DocumentWebpage)
    (autoSync : Bool) :
    let row := (autoSyncSet now document page autoSync).2
    (row.syncStatus = page.syncStatus ∧ row.claimToken = page.claimToken ∧
        row.claimedAt = page.claimedAt) ∨
      autoSync = false ∧ page.queueReason = .automatic ∧
        (page.syncStatus = .queued ∨ page.syncStatus = .running) ∧
        row.syncStatus = .idle ∧ row.claimToken = none ∧ row.claimedAt = none := by
  unfold autoSyncSet
  dsimp only
  split
  · simp
  · split
    · next hcancels =>
        simp only [cancels, Bool.and_eq_true, Bool.or_eq_true, Bool.not_eq_true',
          decide_eq_true_eq] at hcancels
        obtain ⟨⟨hoff, hreason⟩, hwork⟩ := hcancels
        exact .inr ⟨hoff, hreason, hwork, rfl, rfl, rfl⟩
    · exact .inl ⟨rfl, rfl, rfl⟩

end Rows

/-! ## The invariants of the machine -/

/-- Hash, content, chunks and status are those of a published document, or those of one that
never was. -/
structure PageView.Settled (opens : Opens) (v : PageView) : Prop where
  unpublished : v.page.contentHash = none → v.document.status ≠ .ready ∧
    TextStands opens v.page.content (v.binding "webpage:content") "" ∧ v.chunks = []
  published : v.page.contentHash ≠ none → v.document.status = .ready ∧ v.document.error = none ∧
    (∃ content, TextStands opens v.page.content (v.binding "webpage:content") content ∧
      content ≠ "") ∧ v.chunks ≠ []

/-- Requested work is queued or running, under the reason of its request. -/
structure PageView.Scheduled (v : PageView) : Prop where
  published : v.page.contentHash ≠ none → v.document.status = .ready
  processing : v.document.status = .processing →
    (v.page.syncStatus = .queued ∨ v.page.syncStatus = .running) ∧
      (v.page.queueReason = .initial ∨ v.page.queueReason = .manual)
  queued : v.page.syncStatus = .queued →
    v.page.queueReason = .initial ∨ v.page.queueReason = .manual

/-- A claim stands exactly on a running row. -/
structure PageView.Leased (v : PageView) : Prop where
  running : v.page.syncStatus = .running →
    ∃ token at_, v.page.claimToken = some token ∧ v.page.claimedAt = some at_
  resting : v.page.syncStatus ≠ .running → v.page.claimToken = none

/-- Every private column of the rows opens under the binding of its reader. -/
structure PageView.Sealed (opens : Opens) (v : PageView) : Prop where
  name : ∃ name, TextStands opens v.document.name (v.binding "document:name") name
  error : ∀ stored, v.document.error = some stored →
    ∃ error, TextStands opens stored (v.binding "document:error") error
  urls : ∃ urls, UrlsStand opens v.document.userId.str v.document.id.str v.page.urls urls
  syncError : ∀ stored, v.page.syncError = some stored →
    ∃ error, TextStands opens stored (v.binding "webpage:error") error
  content : ∃ content, TextStands opens v.page.content (v.binding "webpage:content") content

/-- The four signs of an unpublished document agree. -/
theorem PageView.Settled.agree {opens : Opens} {v : PageView} (h : v.Settled opens) :
    (v.page.contentHash = none ↔
        TextStands opens v.page.content (v.binding "webpage:content") "") ∧
      (v.page.contentHash = none ↔ v.chunks = []) ∧
      (v.page.contentHash = none ↔ v.document.status ≠ .ready) := by
  by_cases hhash : v.page.contentHash = none
  · obtain ⟨hstatus, hcontent, hchunks⟩ := h.unpublished hhash
    simp [hhash, hstatus, hcontent, hchunks]
  · obtain ⟨hstatus, -, ⟨content, hstands, hne⟩, hchunks⟩ := h.published hhash
    have hcontent : ¬ TextStands opens v.page.content (v.binding "webpage:content") "" :=
      fun hempty => hne (hstands.unique hempty)
    simp [hhash, hstatus, hcontent, hchunks]

section Preservation

variable {opens : Opens} {v v' : PageView} {move : Move}

theorem PageView.New.settled (h : v.New opens) : v.Settled opens := by
  refine ⟨fun _ => ⟨?_, h.content, h.chunks⟩, fun hhash => ?_⟩
  · rw [h.status]
    decide
  · rw [h.page] at hhash
    exact absurd rfl hhash

theorem PageView.New.scheduled (h : v.New opens) : v.Scheduled := by
  refine ⟨fun hhash => ?_, fun _ => ?_, fun _ => ?_⟩
  · rw [h.page] at hhash
    exact absurd rfl hhash
  · rw [h.page]
    exact ⟨.inl rfl, .inl rfl⟩
  · rw [h.page]
    exact .inl rfl

theorem PageView.New.leased (h : v.New opens) : v.Leased := by
  refine ⟨fun hrunning => ?_, fun _ => ?_⟩
  · rw [h.page] at hrunning
    cases hrunning
  · rw [h.page]
    rfl

theorem PageView.New.sealed (h : v.New opens) : v.Sealed opens := by
  refine ⟨h.name, ?_, h.urls, ?_, ⟨_, h.content⟩⟩
  · rw [h.error]
    simp
  · rw [h.page]
    simp [newWebpage]

/-- Every move keeps a document settled: its hash, content, chunks and status are those of a
published document, or those of one that never was. -/
theorem settled_step (h : PageMove opens (some v) move (some v')) (hv : v.Settled opens) :
    v'.Settled opens := by
  obtain ⟨hunpublished, hpublished⟩ := hv
  cases h with
  | enqueued =>
      refine ⟨fun (hhash : v.page.contentHash = none) => ?_,
        fun (hhash : v.page.contentHash ≠ none) => ?_⟩
      · obtain ⟨_, hcontent, hchunks⟩ := hunpublished hhash
        refine ⟨?_, ?_, hchunks⟩
        · rw [PageView.withRows_document, enqueued_status, if_pos hhash]
          decide
        · simpa [PageView.binding] using hcontent
      · obtain ⟨hstatus, herror, hcontent, hchunks⟩ := hpublished hhash
        refine ⟨?_, ?_, ?_, hchunks⟩
        · rw [PageView.withRows_document, enqueued_status, if_neg hhash, hstatus]
        · rw [PageView.withRows_document, enqueued_error, if_neg hhash, herror]
        · simpa [PageView.binding] using hcontent
  | @switched _ autoSync now =>
      obtain ⟨howner, -, hstatus, herror, -, hcontent, hhash, -⟩ :=
        autoSyncSet_fields now v.document v.page autoSync
      have hid := (autoSyncSet_id now v.document v.page autoSync).1
      constructor
      · simpa [PageView.binding, howner, hid, hstatus, hcontent, hhash] using hunpublished
      · simpa [PageView.binding, howner, hid, hstatus, herror, hcontent, hhash] using hpublished
  | claimed => exact ⟨hunpublished, hpublished⟩
  | published _ _ hcontent hchunks hholds =>
      refine ⟨fun hhash => absurd hhash (by simp [hholds.contentHash]), fun _ => ?_⟩
      refine ⟨rfl, rfl, ⟨_, hholds.content, hcontent⟩, ?_⟩
      intro hnil
      have hlength := hholds.chunks.length_eq
      rw [hnil, List.length_nil] at hlength
      exact hchunks (List.length_eq_zero_iff.mp hlength.symm)
  | confirmed hheld hsame =>
      have hhash : v.page.contentHash ≠ none := by simp [hsame]
      refine ⟨fun hnone => absurd hnone hhash, fun _ => ?_⟩
      obtain ⟨_, _, hcontent, hchunks⟩ := hpublished hhash
      exact ⟨rfl, rfl, hcontent, hchunks⟩
  | failed hheld hdocument hsync =>
      refine ⟨fun (hhash : v.page.contentHash = none) => ?_,
        fun (hhash : v.page.contentHash ≠ none) => ?_⟩
      · obtain ⟨_, hcontent, hchunks⟩ := hunpublished hhash
        rw [PageView.failed, if_pos hhash]
        exact ⟨by simp, hcontent, hchunks⟩
      · obtain ⟨hstatus, herror, hcontent, hchunks⟩ := hpublished hhash
        rw [PageView.failed, if_neg hhash]
        exact ⟨hstatus, herror, hcontent, hchunks⟩

/-- Every move keeps requested work on the schedule: a processing document is queued or running
under the reason of its request. -/
theorem scheduled_step (h : PageMove opens (some v) move (some v')) (hv : v.Scheduled) :
    v'.Scheduled := by
  obtain ⟨hpublished, hprocessing, hqueued⟩ := hv
  cases h with
  | enqueued =>
      refine ⟨fun (hhash : v.page.contentHash ≠ none) => ?_, fun _ => ⟨.inl rfl, .inr rfl⟩,
        fun _ => .inr rfl⟩
      rw [PageView.withRows_document, enqueued_status, if_neg hhash]
      exact hpublished hhash
  | @switched _ autoSync now =>
      obtain ⟨-, -, hstatus, -, -, -, hhash, -, -, hreason⟩ :=
        autoSyncSet_fields now v.document v.page autoSync
      have hwork := autoSyncSet_work now v.document v.page autoSync
      refine ⟨by simpa [hstatus, hhash] using hpublished, ?_, ?_⟩
      · rw [PageView.withRows_document, PageView.withRows_page, hstatus, hreason]
        intro hstarted
        obtain ⟨hsync, hwhy⟩ := hprocessing hstarted
        rcases hwork with ⟨hsame, -⟩ | ⟨-, hautomatic, -⟩
        · rw [hsame]
          exact ⟨hsync, hwhy⟩
        · -- what a switch cancels was automatic, so the document was not processing
          rw [hautomatic] at hwhy
          simp at hwhy
      · rw [PageView.withRows_page, hreason]
        intro hstill
        rcases hwork with ⟨hsame, -⟩ | ⟨-, -, -, hidle, -⟩
        · exact hqueued (hsame ▸ hstill)
        · rw [hidle] at hstill
          cases hstill
  | claimed hdue =>
      refine ⟨hpublished, fun hstarted => ⟨.inr rfl, ?_⟩, fun hq => (by cases hq)⟩
      obtain ⟨hsync, hwhy⟩ := hprocessing hstarted
      simp only [PageView.withRows_page, claimed]
      rcases hsync with hsync | hsync <;> simpa [hsync] using hwhy
  | published =>
      exact ⟨fun _ => rfl, fun hstarted => (by cases hstarted), fun hq => (by cases hq)⟩
  | confirmed =>
      exact ⟨fun _ => rfl, fun hstarted => (by cases hstarted), fun hq => (by cases hq)⟩
  | failed =>
      refine ⟨fun (hhash : v.page.contentHash ≠ none) => ?_, fun hstarted => ?_,
        fun hq => (by cases hq)⟩
      · rw [PageView.failed, if_neg hhash]
        exact hpublished hhash
      · rw [PageView.failed] at hstarted
        split at hstarted
        · cases hstarted
        · next hhash => exact absurd (hstarted.symm.trans (hpublished hhash)) (by decide)

/-- Work that was asked for, and not by the schedule. -/
structure PageView.Requested (v : PageView) (reason : QueueReason) : Prop where
  work : v.page.syncStatus = .queued ∨ v.page.syncStatus = .running
  reason_eq : v.page.queueReason = reason
  asked : reason ≠ .automatic

theorem PageView.New.requested (h : v.New opens) : v.Requested .initial := by
  refine ⟨?_, ?_, by decide⟩
  · rw [h.page]
    exact .inl rfl
  · rw [h.page]
    rfl

/-- Whether a move completes the work. -/
def Move.completes : Move → Bool
  | .published .. => true
  | .confirmed .. => true
  | .failed .. => true
  | _ => false

/-- Requested work stays until it is completed or its document is deleted: a claim takes it on under
its reason, and the switch does not cancel it. -/
theorem requested_step {reason : QueueReason} {after : Option PageView}
    (h : PageMove opens (some v) move after) (hcompletes : move.completes = false)
    (hdeleted : move ≠ .deleted) (hv : v.Requested reason) :
    ∃ v', after = some v' ∧ v'.Requested reason := by
  obtain ⟨hwork, hreason, hasked⟩ := hv
  cases h with
  | enqueued hqueued hrunning => exact absurd hwork (by simp [hqueued, hrunning])
  | @switched _ autoSync now =>
      refine ⟨_, rfl, ?_⟩
      obtain ⟨-, -, -, -, -, -, -, -, -, hreason'⟩ :=
        autoSyncSet_fields now v.document v.page autoSync
      rcases autoSyncSet_work now v.document v.page autoSync with ⟨hsame, -⟩ | ⟨-, hautomatic, -⟩
      · refine ⟨?_, ?_, hasked⟩
        · rw [PageView.withRows_page, hsame]
          exact hwork
        · rw [PageView.withRows_page, hreason']
          exact hreason
      · exact absurd (hreason.symm.trans hautomatic) hasked
  | claimed =>
      refine ⟨_, rfl, .inr rfl, ?_, hasked⟩
      have hbusy : ¬ (v.page.syncStatus = .idle ∨ v.page.syncStatus = .failed) := by
        rcases hwork with h | h <;> simp [h]
      rw [PageView.withRows_page, claimed, if_neg hbusy]
      exact hreason
  | published => cases hcompletes
  | confirmed => cases hcompletes
  | failed => cases hcompletes
  | deleted => exact absurd rfl hdeleted

theorem leased_step (h : PageMove opens (some v) move (some v')) (hv : v.Leased) :
    v'.Leased := by
  cases h with
  | enqueued => exact ⟨fun hrunning => (by cases hrunning), fun _ => rfl⟩
  | @switched _ autoSync now =>
      rcases autoSyncSet_work now v.document v.page autoSync with ⟨hsync, htoken, hat⟩ | ⟨-, -, -, hidle, htoken, -⟩
      · constructor
        · simpa [hsync, htoken, hat] using hv.running
        · simpa [hsync, htoken] using hv.resting
      · refine ⟨fun hrunning => ?_, fun _ => htoken⟩
        rw [PageView.withRows_page, hidle] at hrunning
        cases hrunning
  | claimed => exact ⟨fun _ => ⟨_, _, rfl, rfl⟩, fun hresting => absurd rfl hresting⟩
  | published => exact ⟨fun hrunning => (by cases hrunning), fun _ => rfl⟩
  | confirmed => exact ⟨fun hrunning => (by cases hrunning), fun _ => rfl⟩
  | failed => exact ⟨fun hrunning => (by cases hrunning), fun _ => rfl⟩

/-- The token that a completion settles. -/
def Move.settles : Move → Option Uuid
  | .published token _ => some token
  | .confirmed token _ => some token
  | .failed token => some token
  | _ => none

/-- A row held after a move was claimed by it, or held before and only switched. -/
theorem heldBy_after {before : Option PageView} {token : Uuid}
    (h : PageMove opens before move (some v')) (hheld : v'.heldBy token) :
    (∃ now, move = .claimed token now ∧ v'.page.claimedAt = some now) ∨
      ∃ v autoSync now, before = some v ∧ move = .switched autoSync now ∧ v.heldBy token ∧
        v'.page.claimedAt = v.page.claimedAt := by
  obtain ⟨hrunning, htoken⟩ := hheld
  cases h with
  | created hnew =>
      rw [hnew.page] at hrunning
      cases hrunning
  | enqueued => cases hrunning
  | @switched v autoSync now =>
      rcases autoSyncSet_work now v.document v.page autoSync with ⟨hsync, htoken', hat⟩ | ⟨-, -, -, hidle, -, -⟩
      · refine .inr ⟨v, autoSync, now, rfl, rfl, ⟨?_, ?_⟩, hat⟩
        · exact hsync.symm.trans hrunning
        · exact htoken'.symm.trans htoken
      · rw [PageView.withRows_page, hidle] at hrunning
        cases hrunning
  | claimed =>
      cases htoken
      exact .inl ⟨_, rfl, rfl⟩
  | published => cases hrunning
  | confirmed => cases hrunning
  | failed => cases hrunning

/-- What may happen to a held row: the switch leaves its holder, or cancels an automatic sync;
another claim takes it once it is due again; its holder settles it; or it is deleted. -/
theorem heldBy_before {after : Option PageView} {token : Uuid}
    (h : PageMove opens (some v) move after) (hheld : v.heldBy token) :
    (∃ v' autoSync now, after = some v' ∧ move = .switched autoSync now ∧
        ((v'.heldBy token ∧ v'.page.claimedAt = v.page.claimedAt) ∨
          autoSync = false ∧ ¬ v'.heldBy token)) ∨
      (∃ next now, move = .claimed next now ∧ due now v.page = true) ∨
      move.settles = some token ∨ after = none := by
  obtain ⟨hrunning, htoken⟩ := hheld
  cases h with
  | enqueued _ hnot => exact absurd hrunning hnot
  | @switched _ autoSync now =>
      refine .inl ⟨_, autoSync, now, rfl, rfl, ?_⟩
      rcases autoSyncSet_work now v.document v.page autoSync with ⟨hsync, htoken', hat⟩ | ⟨hoff, -, -, hidle, -, -⟩
      · exact .inl ⟨⟨hsync.trans hrunning, htoken'.trans htoken⟩, hat⟩
      · refine .inr ⟨hoff, fun hheld => ?_⟩
        rw [PageView.heldBy, PageView.withRows_page, hidle] at hheld
        cases hheld.1
  | claimed hdue => exact .inr (.inl ⟨_, _, rfl, hdue⟩)
  | published hheld =>
      obtain rfl := Option.some.inj (hheld.2.symm.trans htoken)
      exact .inr (.inr (.inl rfl))
  | confirmed hheld =>
      obtain rfl := Option.some.inj (hheld.2.symm.trans htoken)
      exact .inr (.inr (.inl rfl))
  | failed hheld =>
      obtain rfl := Option.some.inj (hheld.2.symm.trans htoken)
      exact .inr (.inr (.inl rfl))
  | deleted => exact .inr (.inr (.inr rfl))

/-- Every move keeps the rows sealed: each private column opens under the binding of its reader. -/
theorem sealed_step (h : PageMove opens (some v) move (some v')) (hv : v.Sealed opens) :
    v'.Sealed opens := by
  obtain ⟨hname, herror, hurls, hsyncError, hcontent⟩ := hv
  cases h with
  | enqueued =>
      refine ⟨?_, ?_, ?_, fun _ hnone => (by cases hnone), ?_⟩
      · simpa [PageView.binding, enqueued_id] using hname
      · intro stored hstored
        rw [PageView.withRows_document, enqueued_error] at hstored
        split at hstored
        · cases hstored
        · simpa [PageView.binding, enqueued_id] using herror stored hstored
      · simpa [enqueued_id] using hurls
      · simpa [PageView.binding, enqueued_id] using hcontent
  | @switched _ autoSync now =>
      obtain ⟨howner, hname', -, herror', hurls', hcontent', -, hsync', -⟩ :=
        autoSyncSet_fields now v.document v.page autoSync
      have hid := (autoSyncSet_id now v.document v.page autoSync).1
      constructor
      · simpa [PageView.binding, howner, hid, hname'] using hname
      · simpa [PageView.binding, howner, hid, herror'] using herror
      · simpa [howner, hid, hurls'] using hurls
      · simpa [PageView.binding, howner, hid, hsync'] using hsyncError
      · simpa [PageView.binding, howner, hid, hcontent'] using hcontent
  | claimed => exact ⟨hname, herror, hurls, fun _ hnone => (by cases hnone), hcontent⟩
  | published _ _ _ _ hholds =>
      exact ⟨hname, fun _ hnone => (by cases hnone), hurls, fun _ hnone => (by cases hnone),
        ⟨_, hholds.content⟩⟩
  | confirmed =>
      exact ⟨hname, fun _ hnone => (by cases hnone), hurls, fun _ hnone => (by cases hnone), hcontent⟩
  | failed hheld hdocument hsync =>
      unfold PageView.failed
      split
      · next hhash =>
          refine ⟨hname, ?_, hurls, ?_, hcontent⟩
          · rintro stored ⟨⟩
            exact ⟨_, hdocument hhash⟩
          · rintro stored ⟨⟩
            exact ⟨_, hsync⟩
      · refine ⟨hname, herror, hurls, ?_, hcontent⟩
        rintro stored ⟨⟩
        exact ⟨_, hsync⟩

/-- Only a publication changes what a document shows. -/
theorem unpublished_step (h : PageMove opens (some v) move (some v'))
    (hmove : ∀ token args, move ≠ .published token args) :
    v'.page.contentHash = v.page.contentHash ∧ v'.page.content = v.page.content ∧
      v'.chunks = v.chunks ∧ v'.document.id = v.document.id ∧
      v'.document.userId = v.document.userId := by
  cases h with
  | enqueued => exact ⟨rfl, rfl, rfl, enqueued_id _ _ _, enqueued_userId⟩
  | @switched _ autoSync now =>
      obtain ⟨howner, -, -, -, -, hcontent, hhash, -⟩ :=
        autoSyncSet_fields now v.document v.page autoSync
      exact ⟨hhash, hcontent, rfl, (autoSyncSet_id now v.document v.page autoSync).1, howner⟩
  | claimed => exact ⟨rfl, rfl, rfl, rfl, rfl⟩
  | published => exact absurd rfl (hmove _ _)
  | confirmed => exact ⟨rfl, rfl, rfl, rfl, rfl⟩
  | failed => unfold PageView.failed; split <;> exact ⟨rfl, rfl, rfl, rfl, rfl⟩

/-- A publication stays in place until the next one. -/
theorem holds_step {args : Publication} (h : PageMove opens (some v) move (some v'))
    (hmove : ∀ token new, move ≠ .published token new) (hv : v.Holds opens args) :
    v'.Holds opens args := by
  obtain ⟨hhash, hcontent, hchunks, hid, howner⟩ := unpublished_step h hmove
  constructor
  · rw [hhash]
    exact hv.contentHash
  · rw [PageView.binding, hcontent, hid, howner]
    exact hv.content
  · rw [hchunks, hid, howner]
    exact hv.chunks

end Preservation

/-! ## Reading sealed rows -/

section Reading

variable {opens : Opens} {cipher : PrivateDataCipher} {v : PageView} {e : Exc}

theorem readOptional_error (huses : cipher.Uses opens) {stored : Option String}
    {binding : StorageBinding}
    (hs : ∀ text, stored = some text → ∃ plain, TextStands opens text binding plain)
    (h : cipher.privateData.readOptional stored binding = .error e) :
    e = .privateDataUnavailable := by
  cases stored with
  | none => cases h
  | some text =>
      obtain ⟨plain, hplain⟩ := hs text rfl
      exact readText_error huses hplain (map_eq_error.mp h)

theorem readUrls_error (huses : cipher.Uses opens) {owner resource : String}
    {stored urls : List String} (hs : UrlsStand opens owner resource stored urls)
    (h : readUrls cipher.privateData owner resource stored = .error e) :
    e = .privateDataUnavailable := by
  obtain ⟨s, hmem, hfail⟩ := exists_of_mapM_eq_error h
  obtain ⟨i, hi, rfl⟩ := List.mem_iff_getElem.mp hmem
  exact readText_error huses (hs.get hi (hs.length_eq ▸ hi)) hfail

/-- A sealed document is unreadable only for want of the encryption service. -/
theorem detail_error (huses : cipher.Uses opens) (hv : v.Sealed opens)
    (h : detail cipher.privateData v.document v.page = .error e) :
    e = .privateDataUnavailable := by
  obtain ⟨⟨name, hname⟩, herror, ⟨urls, hurls⟩, hsyncError, ⟨content, hcontent⟩⟩ := hv
  rcases bind_eq_error.mp h with h | ⟨record, _, h⟩
  · rcases bind_eq_error.mp h with h | ⟨page, _, h⟩
    · rcases bind_eq_error.mp h with h | ⟨_, _, h⟩
      · exact readUrls_error huses hurls h
      · rcases bind_eq_error.mp h with h | ⟨_, _, h⟩
        · exact readOptional_error huses hsyncError h
        · cases h
    · rcases bind_eq_error.mp h with h | ⟨_, _, h⟩
      · exact readText_error huses hname h
      · rcases bind_eq_error.mp h with h | ⟨_, _, h⟩
        · exact readOptional_error huses herror h
        · cases h
  · rcases bind_eq_error.mp h with h | ⟨_, _, h⟩
    · exact readText_error huses hcontent h
    · cases h

theorem committedDetail_error (huses : cipher.Uses opens) {rows : Document × DocumentWebpage}
    (hv : (v.withRows rows).Sealed opens)
    (h : committedDetail cipher.privateData (some rows) = .error e) :
    e = .privateDataUnavailable :=
  detail_error huses hv (map_eq_error.mp h)

end Reading

end PortRag.Webpages
