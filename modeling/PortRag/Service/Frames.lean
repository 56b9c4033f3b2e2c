import PortRag.Db.Owners
import PortRag.Knowledge.Membership
import PortRag.Webpages.Transitions
import PortRag.Service.Calls

set_option autoImplicit false

/-!
# What a call leaves alone

A committed call works for one owner, who is not fenced.  It adds documents and revisions of
that owner only, never changes the owner of a document, never turns a file document into a
webpage document or back, never touches the rows of a revision that is there, and leaves
the rows of every other owner as they are.
-/

namespace PortRag.Service

open PortRag.Foundation PortRag.Db PortRag.Security PortRag.Http PortRag.Ingest PortRag.Webpages
  PortRag.Knowledge

/-- The frame of a committed call for `owner` that may register the document `fresh`. -/
structure Frame (owner : Uuid) (fresh : Option Uuid) (db db' : Database) : Prop where
  erased : db'.erasedOwners = db.erasedOwners
  documents : ∀ id d', db'.document? id = some d' →
    (∃ d, db.document? id = some d ∧ d.userId = d'.userId ∧
      (db'.webpage? id).isSome = (db.webpage? id).isSome) ∨
    (fresh = some id ∧ d'.userId = owner ∧ db.document? id = none)
  revisions : ∀ id r', db'.revisions.find? id = some r' →
    db.revisions.find? id = some r' ∨ (r'.userId = owner ∧ db.revisions.find? id = none)
  kept : ∀ id r, db.revisions.find? id = some r → db'.revisions.find? id = some r
  frozen : ∀ id r, db.revisions.find? id = some r → db'.frozenOf id = db.frozenOf id
  members : ∀ id r, db.revisions.find? id = some r → db'.membersOf id = db.membersOf id
  others : ∀ other, other ≠ owner → db'.slice other = db.slice other

/-- A transaction that leaves everything but the columns and chunks of its owner's documents
alone. -/
structure Touches (owner : Uuid) (db db' : Database) : Prop where
  erased : db'.erasedOwners = db.erasedOwners
  owners : ∀ id, (db'.document? id).map (·.userId) = (db.document? id).map (·.userId)
  pages : ∀ id, (db'.webpage? id).isSome = (db.webpage? id).isSome
  revisions : db'.revisions = db.revisions
  revisionChunks : db'.revisionChunks = db.revisionChunks
  revisionWebpages : db'.revisionWebpages = db.revisionWebpages
  others : ∀ other, other ≠ owner → db'.slice other = db.slice other

section Touches

variable {owner : Uuid} {db mid db' : Database}

theorem Touches.trans (h : Touches owner db mid) (h' : Touches owner mid db') :
    Touches owner db db' where
  erased := h'.erased.trans h.erased
  owners := fun id => (h'.owners id).trans (h.owners id)
  pages := fun id => (h'.pages id).trans (h.pages id)
  revisions := h'.revisions.trans h.revisions
  revisionChunks := h'.revisionChunks.trans h.revisionChunks
  revisionWebpages := h'.revisionWebpages.trans h.revisionWebpages
  others := fun other hother => (h'.others other hother).trans (h.others other hother)

theorem Touches.frame (h : Touches owner db db') (fresh : Option Uuid) :
    Frame owner fresh db db' where
  erased := h.erased
  documents := by
    intro id d' hd'
    have howner := h.owners id
    rw [hd', Option.map_some] at howner
    obtain ⟨d, hd, hsame⟩ := Option.map_eq_some_iff.mp howner.symm
    exact .inl ⟨d, hd, hsame, h.pages id⟩
  revisions := fun id r' hr' => .inl (h.revisions ▸ hr')
  kept := fun id r hr => h.revisions.symm ▸ hr
  frozen := fun id _ _ => by rw [Database.frozenOf, Database.frozenOf, h.revisionChunks]
  members := fun id _ _ => by rw [Database.membersOf, Database.membersOf, h.revisionWebpages]
  others := h.others

/-- Another owner does not own a document of this one. -/
theorem not_ownsDocument {id other : Uuid} {d : Document} (hd : db.document? id = some d)
    (howner : d.userId = owner) (hother : other ≠ owner) : db.ownsDocument other id = false := by
  rw [Database.ownsDocument, hd, Option.any_some, howner]
  simpa using hother.symm

theorem touches_updateDocument {d old : Document} (hold : db.document? d.id = some old)
    (howner : old.userId = owner) (hsame : d.userId = old.userId) :
    Touches owner db (db.updateDocument d) where
  erased := rfl
  owners := by
    intro id
    rw [Database.document?_updateDocument hold]
    split
    · next hid => rw [hid, hold, Option.map_some, Option.map_some, hsame]
    · rfl
  pages := fun _ => rfl
  revisions := rfl
  revisionChunks := rfl
  revisionWebpages := rfl
  others := by
    intro other hother
    refine Database.slice_updateDocument hold hsame ?_
    rw [hsame, howner]
    exact hother.symm

theorem touches_updateWebpage {p old : DocumentWebpage} {d : Document}
    (hold : db.webpage? p.documentId = some old) (hd : db.document? p.documentId = some d)
    (howner : d.userId = owner) : Touches owner db (db.updateWebpage p) where
  erased := rfl
  owners := fun _ => rfl
  pages := by
    intro id
    rw [Database.webpage?_updateWebpage hold]
    split
    · next hid => rw [hid, hold, Option.isSome_some, Option.isSome_some]
    · rfl
  revisions := rfl
  revisionChunks := rfl
  revisionWebpages := rfl
  others := fun _ hother => Database.slice_updateWebpage (not_ownsDocument hd howner hother)

/-- The update of both rows of a webpage document. -/
theorem touches_rows {v : PageView} {id : Uuid} (hv : viewOf db id = some v)
    (howner : v.document.userId = owner) {document : Document} {page : DocumentWebpage}
    (hid : document.id = v.document.id) (hpid : page.documentId = v.page.documentId)
    (hsame : document.userId = v.document.userId) :
    Touches owner db ((db.updateDocument document).updateWebpage page) := by
  obtain ⟨hd, hp, -⟩ := viewOf_eq_some_iff.mp hv
  have hdocument : db.document? document.id = some v.document := by
    rw [hid, viewOf_document_id hv]
    exact hd
  have hpage : (db.updateDocument document).webpage? page.documentId = some v.page := by
    rw [hpid, viewOf_page_id hv]
    exact hp
  have hupdated : (db.updateDocument document).document? page.documentId = some document := by
    rw [Database.document?_updateDocument hdocument, hpid, hid, viewOf_page_id hv,
      viewOf_document_id hv, if_pos rfl]
  exact (touches_updateDocument hdocument howner hsame).trans
    (touches_updateWebpage hpage hupdated (hsame.trans howner))

/-- The replacement of the chunks of one document. -/
theorem touches_replaceChunks {id : Uuid} {d : Document} {rows : List DocumentChunk}
    (hd : db.document? id = some d) (howner : d.userId = owner)
    (hrows : ∀ row ∈ rows, row.documentId = id)
    (h : (db.deleteChunks id).insertChunks rows = .ok db') : Touches owner db db' := by
  obtain ⟨t, ht, hfk, rfl⟩ := Database.insertChunks_ok h
  refine ⟨rfl, fun _ => rfl, fun _ => rfl, rfl, rfl, rfl, ?_⟩
  intro other hother
  have hne := not_ownsDocument hd howner hother
  rw [Database.slice_withChunks ht hfk, Database.slice_deleteChunks hne]
  intro row hrow
  rw [hrows row hrow]
  exact hne

theorem Touches.refl (owner : Uuid) (db : Database) : Touches owner db db :=
  ⟨rfl, fun _ => rfl, fun _ => rfl, rfl, rfl, rfl, fun _ _ => rfl⟩

theorem Frame.refl (owner : Uuid) (fresh : Option Uuid) (db : Database) :
    Frame owner fresh db db :=
  (Touches.refl owner db).frame fresh

end Touches

/-! ## The webpage repository -/

section Webpages

variable {pd : PrivateData} {db db' : Database}

/-- The rows of a publication belong to its document. -/
theorem chunkRows_documentId {uuid4 : Nat → Uuid} {owner : String} {documentId : Uuid}
    {chunks : List IngestChunk} {embeddings : List Embedding} {rows : List DocumentChunk}
    (h : chunkRows pd uuid4 owner documentId chunks embeddings = .ok rows) :
    ∀ row ∈ rows, row.documentId = documentId := by
  obtain ⟨built, hbuilt, h⟩ := bind_eq_ok.mp h
  split at h
  · obtain rfl := pure_eq_ok.mp h
    have hrows := mapM_eq_ok.mp hbuilt
    intro row hrow
    obtain ⟨i, hi, rfl⟩ := List.mem_iff_getElem.mp hrow
    have hz := hrows.get (hrows.length_eq ▸ hi) hi
    obtain ⟨_, _, hz⟩ := bind_eq_ok.mp hz
    obtain ⟨_, _, hz⟩ := bind_eq_ok.mp hz
    have hrow := pure_eq_ok.mp hz
    exact (congrArg DocumentChunk.documentId hrow).symm
  · cases h

/-- The frame of a registration: a new document of its owner, with its webpage row. -/
theorem createTransaction_frame {lib : UrlFunctions} {documentId userId : Uuid} {now : Time}
    {knowledgeKey : String} {name : Option String} {urls : List String} {autoSync : Bool}
    {record : DocumentRecord}
    (h : createTransaction pd lib documentId now db userId knowledgeKey name urls autoSync
      = .ok (record, db')) :
    userId ∉ db.erasedOwners ∧ Frame userId (some documentId) db db' := by
  obtain ⟨normalized, storedName, storedUrls, storedContent, mid, hlock, -, -, -, hmid, hpage, -⟩ :=
    createTransaction_ok h
  obtain ⟨hfresh, t, ht, rfl⟩ := Database.insertDocument_ok hmid
  obtain ⟨w, hw, hfk, rfl⟩ := Database.insertWebpage_ok hpage
  refine ⟨lockActiveOwner_ok hlock, rfl, ?_, fun _ _ hr => .inl hr, fun _ _ hr => hr,
    fun _ _ _ => rfl, fun _ _ _ => rfl, ?_⟩
  · intro id d' hd'
    rw [Database.document?_withWebpage, Database.document?_withDocument] at hd'
    split at hd'
    · next hid =>
        cases hd'
        exact .inr ⟨congrArg some hid.symm, rfl, hid ▸ hfresh⟩
    · next hid =>
        refine .inl ⟨d', hd', rfl, ?_⟩
        have hpid : id ≠ (newWebpage documentId storedUrls storedContent autoSync).documentId := hid
        rw [Database.webpage?_withWebpage, if_neg hpid, Database.webpage?_withDocument]
  · intro other hother
    have hinserted := Database.slice_withDocument ht hother.symm hfresh
    rw [Database.slice_withWebpage, hinserted]
    rw [Database.ownsDocument_withDocument ht hother.symm hfresh, Database.ownsDocument]
    exact congrArg (Option.any _) hfresh

theorem enqueueTransaction_frame {now : Time} {documentId userId : Uuid}
    {rows : Option (Document × DocumentWebpage)}
    (h : enqueueTransaction now db documentId userId = .ok (rows, db')) :
    userId ∉ db.erasedOwners ∧ Frame userId none db db' := by
  obtain ⟨_, hlock, -⟩ := bind_eq_ok.mp h
  refine ⟨lockActiveOwner_ok hlock, ?_⟩
  rcases enqueueTransaction_ok h with ⟨-, rfl⟩ | ⟨v, hv, howner, -, -, -, rfl⟩
  · exact Frame.refl _ _ _
  · refine Touches.frame ?_ none
    exact touches_rows hv howner (enqueued_id _ _ _) rfl enqueued_userId

theorem setAutoSyncTransaction_frame {now : Time} {documentId userId : Uuid} {autoSync : Bool}
    {rows : Option (Document × DocumentWebpage)}
    (h : setAutoSyncTransaction now db documentId userId autoSync = .ok (rows, db')) :
    userId ∉ db.erasedOwners ∧ Frame userId none db db' := by
  obtain ⟨_, hlock, -⟩ := bind_eq_ok.mp h
  refine ⟨lockActiveOwner_ok hlock, ?_⟩
  rcases setAutoSyncTransaction_ok h with ⟨-, rfl⟩ | ⟨v, hv, howner, -, rfl⟩
  · exact Frame.refl _ _ _
  · obtain ⟨hid, hpid⟩ := autoSyncSet_id now v.document v.page autoSync
    have hsame := (autoSyncSet_fields now v.document v.page autoSync).1
    exact (touches_rows hv howner hid hpid hsame).frame none

theorem claimTransaction_frame {token documentId owner : Uuid} {now : Time}
    {claim : Option WebpageClaim}
    (h : claimTransaction pd token now db documentId owner = .ok (claim, db')) :
    owner ∉ db.erasedOwners ∧ Frame owner none db db' := by
  obtain ⟨_, hlock, -⟩ := bind_eq_ok.mp h
  refine ⟨lockActiveOwner_ok hlock, ?_⟩
  rcases claimTransaction_ok h with ⟨-, rfl⟩ | ⟨v, _, -, hv, howner, -, -, -, rfl⟩
  · exact Frame.refl _ _ _
  · refine Touches.frame ?_ none
    exact touches_rows hv howner rfl rfl rfl

theorem finish_frame {uuid4 : Nat → Uuid} {now : Time} {claim : WebpageClaim}
    {content contentHash : String} {chunks : Option (List IngestChunk)}
    {embeddings : Option (List Embedding)} {o : Outcome Bool}
    (h : Webpages.finish pd uuid4 now db claim content contentHash chunks embeddings = o) :
    o.db = db ∨ claim.userId ∉ db.erasedOwners ∧ Frame claim.userId none db o.db := by
  rcases complete_cases h with ⟨hidle, -⟩ | ⟨-, ht⟩
  · exact .inl hidle
  rcases completeTransaction_ok ht with ⟨hfalse, -⟩ |
    ⟨-, hactive, v, hv, howner, -, document', page', mid, hpublish, hdb⟩
  · cases hfalse
  obtain ⟨-, -, rfl, hchunks⟩ := publish_ok hpublish
  refine .inr ⟨hactive, ?_⟩
  obtain ⟨hd, hp, -⟩ := viewOf_eq_some_iff.mp hv
  rw [hdb]
  rcases hchunks with ⟨-, rfl, rfl⟩ | ⟨cs, es, rows, stored, -, -, -, -, hrows, -, hinserted, rfl⟩
  · refine Touches.frame ?_ none
    exact touches_rows hv howner rfl rfl rfl
  · have hid := viewOf_document_id hv
    rw [hid] at hinserted hrows
    have hbelong := chunkRows_documentId hrows
    have hreplaced := touches_replaceChunks hd howner hbelong hinserted
    obtain ⟨hd', hp', -⟩ := viewOf_replaceChunks hbelong hinserted claim.documentId
    have hview : viewOf mid claim.documentId
        = some ⟨v.document, v.page, mid.chunksOf claim.documentId⟩ :=
      viewOf_eq_some_iff.mpr ⟨hd'.trans hd, hp'.trans hp, rfl⟩
    refine Touches.frame (hreplaced.trans ?_) none
    exact touches_rows hview howner rfl rfl rfl

theorem fail_frame {now : Time} {claim : WebpageClaim} {error : String} {o : Outcome Bool}
    (h : Webpages.fail pd now db claim error = o) :
    o.db = db ∨ claim.userId ∉ db.erasedOwners ∧ Frame claim.userId none db o.db := by
  rcases complete_cases h with ⟨hidle, -⟩ | ⟨-, ht⟩
  · exact .inl hidle
  rcases completeTransaction_ok ht with ⟨hfalse, -⟩ |
    ⟨-, hactive, v, hv, howner, -, document', page', stored, hfailure, -, hdb⟩
  · cases hfalse
  obtain ⟨rfl, hdocument⟩ := recordFailure_ok hfailure
  refine .inr ⟨hactive, ?_⟩
  rw [hdb]
  rcases hdocument with ⟨-, _, -, rfl⟩ | ⟨-, rfl⟩
  · refine Touches.frame ?_ none
    exact touches_rows hv howner rfl rfl rfl
  · refine Touches.frame ?_ none
    exact touches_rows hv howner rfl rfl rfl

end Webpages

/-! ## Documents and ingest -/

section Documents

variable {pd : PrivateData} {db db' : Database}

theorem createProcessingDocument_frame {documentId userId : Uuid} {now : Time}
    {knowledgeKey name mime : String} {o : Outcome DocumentRecord}
    (h : createProcessingDocument pd documentId now db userId knowledgeKey name mime = o) :
    o.db = db ∨ userId ∉ db.erasedOwners ∧ Frame userId (some documentId) db o.db := by
  rcases Outcome.db_of_afterCommit h with hsame | ⟨document, db', htransaction, hdb⟩
  · exact .inl hsame
  obtain ⟨_, hlock, h⟩ := bind_eq_ok.mp htransaction
  obtain ⟨storedName, -, h⟩ := bind_eq_ok.mp h
  obtain ⟨_, hinsert, h⟩ := bind_eq_ok.mp h
  cases pure_eq_ok.mp h
  rw [hdb]
  obtain ⟨hfresh, t, ht, rfl⟩ := Database.insertDocument_ok (mapError_eq_ok.mp hinsert)
  refine .inr ⟨lockActiveOwner_ok hlock, rfl, ?_, fun _ _ hr => .inl hr, fun _ _ hr => hr,
    fun _ _ _ => rfl, fun _ _ _ => rfl, ?_⟩
  · intro id d' hd'
    rw [Database.document?_withDocument] at hd'
    split at hd'
    · next hid =>
        cases hd'
        exact .inr ⟨congrArg some hid.symm, rfl, hid ▸ hfresh⟩
    · exact .inl ⟨d', hd', rfl, rfl⟩
  · intro other hother
    exact Database.slice_withDocument ht hother.symm hfresh

theorem deleteTransaction_frame {documentId userId : Uuid} {deleted : Bool}
    (h : deleteTransaction db documentId userId = .ok (deleted, db')) :
    userId ∉ db.erasedOwners ∧ Frame userId none db db' := by
  obtain ⟨hactive, hdb, -⟩ := deleteTransaction_ok h
  refine ⟨hactive, ?_⟩
  rw [hdb, Database.deleteDocument]
  refine ⟨rfl, ?_, fun _ _ hr => .inl hr, fun _ _ hr => hr, fun _ _ _ => rfl, fun _ _ _ => rfl, ?_⟩
  · intro id d' hd'
    rw [Database.document?_keepDocuments] at hd'
    obtain ⟨hd, hkeep⟩ := Option.filter_eq_some_iff.mp hd'
    refine .inl ⟨d', hd, rfl, ?_⟩
    rw [Database.webpage?_keepDocuments, hd, Option.any_some, if_pos hkeep]
  · intro other hother
    refine Database.slice_keepDocuments ?_
    intro d howner
    have hne : ¬ (d.id = documentId ∧ d.userId = userId) :=
      fun h => hother (howner.symm.trans h.2)
    exact decide_eq_true hne

/-- Settling a document touches its own row. -/
theorem touches_settled {owner id : Uuid} {d : Document} (hd : db.document? id = some d)
    (howner : d.userId = owner) (status : DocumentStatus) (error : Option String) (now : Time) :
    Touches owner db (db.updateDocument (settledDocument d status error now)) := by
  have hold : db.document? (settledDocument d status error now).id = some d := by
    rw [← hd, ← Database.document?_id hd]
    rfl
  exact touches_updateDocument hold howner rfl

theorem replaceTransaction_frame {uuid4 : Nat → Uuid} {now : Time} {documentId : Uuid}
    {chunks : List IngestChunk} {embeddings : List Embedding} {u : Unit}
    (h : replaceTransaction pd uuid4 now db documentId chunks embeddings = .ok (u, db')) :
    ∃ d, db.document? documentId = some d ∧ d.userId ∉ db.erasedOwners ∧
      Frame d.userId none db db' := by
  obtain ⟨d, hrequire, h⟩ := bind_eq_ok.mp h
  obtain ⟨rows, hrows, h⟩ := bind_eq_ok.mp h
  obtain ⟨mid, hinserted, h⟩ := bind_eq_ok.mp h
  cases pure_eq_ok.mp h
  obtain ⟨hd, hactive⟩ := requireDocument_ok hrequire
  have hbelong := chunkRows_documentId hrows
  have hreplaced := touches_replaceChunks hd rfl hbelong hinserted
  have hd' : mid.document? documentId = some d :=
    (viewOf_replaceChunks hbelong hinserted documentId).1.trans hd
  exact ⟨d, hd, hactive, (hreplaced.trans (touches_settled hd' rfl _ _ _)).frame none⟩

theorem markFailedTransaction_frame {now : Time} {documentId : Uuid} {error : String} {u : Unit}
    (h : markFailedTransaction pd now db documentId error = .ok (u, db')) :
    ∃ d, db.document? documentId = some d ∧ d.userId ∉ db.erasedOwners ∧
      Frame d.userId none db db' := by
  obtain ⟨d, hrequire, h⟩ := bind_eq_ok.mp h
  obtain ⟨stored, -, h⟩ := bind_eq_ok.mp h
  cases pure_eq_ok.mp h
  obtain ⟨hd, hactive⟩ := requireDocument_ok hrequire
  exact ⟨d, hd, hactive, (touches_settled hd rfl _ _ _).frame none⟩

theorem markStorageUnavailableTransaction_frame {now : Time} {documentId : Uuid} {u : Unit}
    (h : markStorageUnavailableTransaction now db documentId = .ok (u, db')) :
    ∃ d, db.document? documentId = some d ∧ d.userId ∉ db.erasedOwners ∧
      Frame d.userId none db db' := by
  obtain ⟨d, hrequire, h⟩ := bind_eq_ok.mp h
  cases pure_eq_ok.mp h
  obtain ⟨hd, hactive⟩ := requireDocument_ok hrequire
  exact ⟨d, hd, hactive, (touches_settled hd rfl _ _ _).frame none⟩

/-- The frame of new embeddings: rows of the owner, who is not fenced. -/
theorem replaceEmbeddingsTransaction_frame {now : Time} {documentId userId : Uuid}
    {embeddings : List Embedding} {answer : Bool}
    (h : replaceEmbeddingsTransaction now db documentId userId embeddings = .ok (answer, db')) :
    userId ∉ db.erasedOwners ∧ Frame userId none db db' := by
  obtain ⟨_, hlock, h⟩ := bind_eq_ok.mp h
  refine ⟨lockActiveOwner_ok hlock, ?_⟩
  split at h
  · cases pure_eq_ok.mp h
    exact Frame.refl _ _ _
  · next d hreindexable =>
      obtain ⟨hd, howner, -⟩ := reindexable_eq_some hreindexable
      dsimp only at h
      split at h
      · cases h
      · cases pure_eq_ok.mp h
        have hreembedded : Touches userId db
            (db.rewriteChunks (reembedded ((orderedChunks db documentId).zip embeddings))
              (reembedded_id _) (reembedded_documentId _)) := by
          refine ⟨rfl, fun _ => rfl, fun _ => rfl, rfl, rfl, rfl, ?_⟩
          intro other hother
          refine Database.slice_rewriteChunks _ _ ?_
          intro c hc howns
          refine reembedded_of_ne hc ?_
          intro hdoc
          have hnot := not_ownsDocument hd howner hother
          rw [← hdoc, howns] at hnot
          cases hnot
        have hd' := (Database.document?_rewriteChunks db
          (reembedded ((orderedChunks db documentId).zip embeddings)) (reembedded_id _)
          (reembedded_documentId _) documentId).trans hd
        exact (hreembedded.trans (touches_settled hd' howner _ _ _)).frame none

theorem markReindexFailedTransaction_frame {now : Time} {documentId userId : Uuid}
    {error : String} {answer : Bool}
    (h : markReindexFailedTransaction pd now db documentId userId error = .ok (answer, db')) :
    userId ∉ db.erasedOwners ∧ Frame userId none db db' := by
  obtain ⟨_, hlock, h⟩ := bind_eq_ok.mp h
  refine ⟨lockActiveOwner_ok hlock, ?_⟩
  split at h
  · cases pure_eq_ok.mp h
    exact Frame.refl _ _ _
  · next d hreindexable =>
      obtain ⟨hd, howner, -⟩ := reindexable_eq_some hreindexable
      obtain ⟨stored, -, h⟩ := bind_eq_ok.mp h
      cases pure_eq_ok.mp h
      exact (touches_settled hd howner _ _ _).frame none

/-- A revision that is there is not the fresh one. -/
theorem ne_of_fresh {id revisionId : Uuid} {r : KnowledgeRevision}
    (hfresh : db.revisions.find? revisionId = none) (hr : db.revisions.find? id = some r) :
    id ≠ revisionId := by
  rintro rfl
  rw [hfresh] at hr
  cases hr

/-- The frame of a new revision: its own rows, in three tables, for an owner who is not fenced. -/
theorem createRevision_frame {uuid4 : Nat → Uuid} {revisionId userId : Uuid} {now : Time}
    {selected : Option (List Uuid)} {record : KnowledgeRevisionRecord}
    (h : Knowledge.createTransaction pd uuid4 revisionId now db userId selected
      = .ok (record, db')) :
    userId ∉ db.erasedOwners ∧ Frame userId none db db' := by
  obtain ⟨frozen, withRevision, withChunks, hactive, hrevision, hfrozen, hchunks, hmembers, -⟩ :=
    Knowledge.createTransaction_ok h
  obtain ⟨hfresh, t, ht, rfl⟩ := Database.insertRevision_ok hrevision
  obtain ⟨u, hu, hufk, rfl⟩ := Database.insertRevisionChunks_ok hchunks
  obtain ⟨w, hw, hwfk, rfl⟩ := Database.insertRevisionWebpages_ok hmembers
  have hlookup := Database.find?_withRevision ht
  have hbelong : ∀ c ∈ frozen, c.revisionId = revisionId := frozenRows_revisionId hfrozen
  refine ⟨hactive, rfl, fun id d' hd' => .inl ⟨d', hd', rfl, rfl⟩, ?_, ?_, ?_, ?_, ?_⟩
  · intro id r' hr'
    have hr := (hlookup id).symm.trans hr'
    split at hr
    · next hid =>
        cases hr
        exact .inr ⟨rfl, hid ▸ hfresh⟩
    · exact .inl hr
  · intro id r hr
    have hne := ne_of_fresh hfresh hr
    exact (hlookup id).trans ((if_neg hne).trans hr)
  · intro id r hr
    have hne := ne_of_fresh hfresh hr
    have hnone : frozen.filter (fun c => c.revisionId = id) = [] := by
      rw [List.filter_eq_nil_iff]
      intro c hc
      simpa [hbelong c hc] using hne.symm
    change u.rows.filter _ = db.revisionChunks.rows.filter _
    rw [hu, List.filter_append, hnone, List.append_nil]
    rfl
  · intro id r hr
    have hne := ne_of_fresh hfresh hr
    have hnone : ((liveIds (sourceRows db userId selected)).map
        (fun id => (⟨revisionId, id⟩ : KnowledgeRevisionWebpage))).filter
          (fun m => m.revisionId = id) = [] := by
      rw [List.filter_eq_nil_iff]
      intro m hm
      obtain ⟨_, -, rfl⟩ := List.mem_map.mp hm
      simpa using hne.symm
    change w.rows.filter _ = db.revisionWebpages.rows.filter _
    rw [hw, List.filter_append, hnone, List.append_nil]
    rfl
  · intro other hother
    have hother' : (db.withRevision t ⟨revisionId, userId, now⟩ ht).ownsRevision other revisionId
        = false := by
      rw [Database.ownsRevision, hlookup, if_pos rfl, Option.any_some]
      simpa using hother.symm
    rw [Database.slice_withRevisionWebpages, Database.slice_withRevisionChunks,
      Database.slice_withRevision ht hother.symm hfresh]
    · intro c hc
      rw [hbelong c hc]
      exact hother'
    · intro m hm
      obtain ⟨_, -, rfl⟩ := List.mem_map.mp hm
      exact hother'

end Documents

/-! ## Calls -/

/-- The owner for whom a call works: an ingest job works for the owner of its document. -/
def ServiceCall.actingFor (db : Database) : ServiceCall → Option Uuid
  | .createDocument _ _ userId _ _ _ => some userId
  | .createWebpage _ _ _ userId _ _ _ _ => some userId
  | .enqueue _ _ userId => some userId
  | .setAutoSync _ _ userId _ => some userId
  | .claimWebpage _ _ _ owner => some owner
  | .finish _ _ claim _ _ _ _ => some claim.userId
  | .fail _ claim _ => some claim.userId
  | .replaceChunks _ _ documentId _ _ => (db.document? documentId).map (·.userId)
  | .markFailed _ documentId _ => (db.document? documentId).map (·.userId)
  | .markStorageUnavailable _ documentId => (db.document? documentId).map (·.userId)
  | .replaceEmbeddings _ _ userId _ => some userId
  | .markReindexFailed _ _ userId _ => some userId
  | .createRevision _ _ _ userId _ => some userId
  | .deleteDocument _ userId => some userId

/-- The document that a call may register. -/
def ServiceCall.fresh : ServiceCall → Option Uuid
  | .createDocument documentId _ _ _ _ _ => some documentId
  | .createWebpage _ documentId _ _ _ _ _ _ => some documentId
  | _ => none

/-- A call left the database alone, or committed inside the frame of its owner. -/
def Framed (acting fresh : Option Uuid) (db db' : Database) : Prop :=
  db' = db ∨ ∃ owner, acting = some owner ∧ owner ∉ db.erasedOwners ∧ Frame owner fresh db db'

section Framed

variable {α β : Type} {acting fresh : Option Uuid} {db db' : Database} {owner : Uuid}

theorem framed_of_active (hacting : acting = some owner)
    (h : db' = db ∨ owner ∉ db.erasedOwners ∧ Frame owner fresh db db') :
    Framed acting fresh db db' := by
  rcases h with hsame | ⟨hactive, hframe⟩
  · exact .inl hsame
  · exact .inr ⟨owner, hacting, hactive, hframe⟩

theorem framed_ofTransaction {t : Except Exc (α × Database)} (hacting : acting = some owner)
    (h : ∀ {a : α} {db' : Database}, t = .ok (a, db') →
      owner ∉ db.erasedOwners ∧ Frame owner fresh db db') :
    Framed acting fresh db (Outcome.ofTransaction db t).db := by
  rcases Outcome.ofTransaction_cases db t with ⟨e, -, ho⟩ | ⟨a, db', ht, ho⟩
  · rw [ho]
    exact .inl rfl
  · rw [ho]
    exact .inr ⟨owner, hacting, h ht⟩

theorem framed_afterCommit {t : Except Exc (β × Database)} (read : β → Except Exc α)
    (hacting : acting = some owner)
    (h : ∀ {b : β} {db' : Database}, t = .ok (b, db') →
      owner ∉ db.erasedOwners ∧ Frame owner fresh db db') :
    Framed acting fresh db (Outcome.afterCommit db t read).db := by
  rcases Outcome.afterCommit_cases db t read with ⟨e, -, ho⟩ | ⟨b, db', ht, ho⟩
  · rw [ho]
    exact .inl rfl
  · rw [ho]
    exact .inr ⟨owner, hacting, h ht⟩

/-- A job works for the owner of its document. -/
theorem framed_job {documentId : Uuid} {t : Except Exc (α × Database)}
    (h : ∀ {a : α} {db' : Database}, t = .ok (a, db') → ∃ d, db.document? documentId = some d ∧
      d.userId ∉ db.erasedOwners ∧ Frame d.userId fresh db db') :
    Framed ((db.document? documentId).map (·.userId)) fresh db (Outcome.ofTransaction db t).db := by
  rcases Outcome.ofTransaction_cases db t with ⟨e, -, ho⟩ | ⟨a, db', ht, ho⟩
  · rw [ho]
    exact .inl rfl
  · obtain ⟨d, hd, hactive, hframe⟩ := h ht
    rw [ho, hd]
    exact .inr ⟨d.userId, rfl, hactive, hframe⟩

end Framed

/-- The owner of a call that committed, and its frame. -/
theorem ServiceCall.frame (c : ServiceCall) (pd : PrivateData) (db : Database) :
    Framed (c.actingFor db) c.fresh db (c.exec pd db).db := by
  cases c with
  | createDocument documentId now userId knowledgeKey name mime =>
      exact framed_of_active rfl (createProcessingDocument_frame rfl)
  | createWebpage lib documentId now userId knowledgeKey name urls autoSync =>
      exact framed_ofTransaction rfl createTransaction_frame
  | enqueue now documentId userId =>
      exact framed_afterCommit (committedDetail pd) rfl enqueueTransaction_frame
  | setAutoSync now documentId userId autoSync =>
      exact framed_afterCommit (committedDetail pd) rfl setAutoSyncTransaction_frame
  | claimWebpage token now documentId owner =>
      exact framed_ofTransaction rfl claimTransaction_frame
  | finish uuid4 now claim content contentHash chunks embeddings =>
      exact framed_of_active rfl (finish_frame rfl)
  | fail now claim error => exact framed_of_active rfl (fail_frame rfl)
  | replaceChunks uuid4 now documentId chunks embeddings => exact framed_job replaceTransaction_frame
  | markFailed now documentId error => exact framed_job markFailedTransaction_frame
  | markStorageUnavailable now documentId =>
      exact framed_job markStorageUnavailableTransaction_frame
  | replaceEmbeddings now documentId userId embeddings =>
      exact framed_ofTransaction rfl replaceEmbeddingsTransaction_frame
  | markReindexFailed now documentId userId error =>
      exact framed_ofTransaction rfl markReindexFailedTransaction_frame
  | createRevision uuid4 revisionId now userId selected =>
      exact framed_ofTransaction rfl createRevision_frame
  | deleteDocument documentId userId => exact framed_ofTransaction rfl deleteTransaction_frame

end PortRag.Service
