import PortRag.Service.Runs

set_option autoImplicit false

/-!
# Webpage documents in runs of the service

Ingest jobs and reindexes are for file documents: an upload queues a job for the document that
it registered, and the reindex request refuses a webpage document.  Then every writing
call is a move of the page machine or leaves all webpage documents alone, and the
invariants of the machine hold in every run.
-/

namespace PortRag.Service

open PortRag.Foundation PortRag.Db PortRag.Security PortRag.Http PortRag.Ingest PortRag.Webpages
  PortRag.Knowledge

/-- The document of an ingest or reindex call. -/
def ServiceCall.jobDocument : ServiceCall → Option Uuid
  | .replaceChunks _ _ documentId _ _ => some documentId
  | .markFailed _ documentId _ => some documentId
  | .markStorageUnavailable _ documentId => some documentId
  | .replaceEmbeddings _ documentId _ _ => some documentId
  | .markReindexFailed _ documentId _ _ => some documentId
  | _ => none

/-- The job of this step, if it is one, is for a file document. -/
def ForFiles (st : ServiceStep) : Prop :=
  ∀ id, st.call.call.jobDocument = some id → st.before.webpage? id = none

section Jobs

variable {db mid db' : Database} {id : Uuid}

/-- Nothing but the row and the chunks of this document changes among the documents. -/
structure Only (id : Uuid) (db db' : Database) : Prop where
  pages : ∀ other, db'.webpage? other = db.webpage? other
  documents : ∀ other, other ≠ id → db'.document? other = db.document? other
  chunks : ∀ other, other ≠ id → db'.chunksOf other = db.chunksOf other

theorem Only.trans (h : Only id db mid) (h' : Only id mid db') : Only id db db' where
  pages := fun other => (h'.pages other).trans (h.pages other)
  documents := fun other hne => (h'.documents other hne).trans (h.documents other hne)
  chunks := fun other hne => (h'.chunks other hne).trans (h.chunks other hne)

/-- A call on a file document leaves every webpage document alone. -/
theorem Only.views (h : Only id db db') (hfile : db.webpage? id = none) (other : Uuid) :
    viewOf db' other = viewOf db other := by
  by_cases hne : other = id
  · subst hne
    rw [viewOf_eq_none_iff.mpr hfile, viewOf_eq_none_iff, h.pages]
    exact hfile
  · exact viewOf_congr (h.documents other hne) (h.pages other) (h.chunks other hne)

theorem only_settled {d : Document} (hd : db.document? id = some d) (status : DocumentStatus)
    (error : Option String) (now : Time) :
    Only id db (db.updateDocument (settledDocument d status error now)) := by
  have hdid : d.id = id := Database.document?_id hd
  have hid : (settledDocument d status error now).id = id := hdid
  have hold : db.document? (settledDocument d status error now).id = some d := hid ▸ hd
  refine ⟨fun _ => rfl, ?_, fun _ _ => rfl⟩
  intro other hne
  rw [Database.document?_updateDocument hold, hid, if_neg hne]

theorem only_replaceChunks {rows : List DocumentChunk} (hrows : ∀ row ∈ rows, row.documentId = id)
    (h : (db.deleteChunks id).insertChunks rows = .ok db') : Only id db db' := by
  have hviews := viewOf_replaceChunks hrows h
  refine ⟨fun other => (hviews other).2.1, fun other _ => (hviews other).1, ?_⟩
  intro other hne
  rw [(hviews other).2.2, if_neg hne]

/-- New embeddings are those of the chunks of one document. -/
theorem only_reembedded (db : Database) (id : Uuid) (embeddings : List Embedding) :
    Only id db (db.rewriteChunks (reembedded ((orderedChunks db id).zip embeddings))
      (reembedded_id _) (reembedded_documentId _)) := by
  refine ⟨fun _ => rfl, fun _ _ => rfl, ?_⟩
  intro other hne
  rw [Database.chunksOf_rewriteChunks]
  refine (List.map_congr_left ?_).trans (List.map_id _)
  intro c hc
  obtain ⟨hmem, hdoc⟩ := Database.mem_chunksOf.mp hc
  exact reembedded_of_ne hmem (hdoc ▸ hne)

end Jobs

section Views

variable {opens : Opens} {db db' : Database}

theorem replaceTransaction_only {pd : PrivateData} {uuid4 : Nat → Uuid} {now : Time} {id : Uuid}
    {chunks : List IngestChunk} {embeddings : List Embedding} {u : Unit}
    (h : replaceTransaction pd uuid4 now db id chunks embeddings = .ok (u, db')) :
    Only id db db' := by
  obtain ⟨d, hrequire, h⟩ := bind_eq_ok.mp h
  obtain ⟨rows, hrows, h⟩ := bind_eq_ok.mp h
  obtain ⟨mid, hinserted, h⟩ := bind_eq_ok.mp h
  cases pure_eq_ok.mp h
  have hbelong := chunkRows_documentId hrows
  have hd' : mid.document? id = some d :=
    (viewOf_replaceChunks hbelong hinserted id).1.trans (requireDocument_ok hrequire).1
  exact (only_replaceChunks hbelong hinserted).trans (only_settled hd' _ _ _)

theorem markFailedTransaction_only {pd : PrivateData} {now : Time} {id : Uuid} {error : String}
    {u : Unit} (h : markFailedTransaction pd now db id error = .ok (u, db')) : Only id db db' := by
  obtain ⟨d, hrequire, h⟩ := bind_eq_ok.mp h
  obtain ⟨stored, -, h⟩ := bind_eq_ok.mp h
  cases pure_eq_ok.mp h
  exact only_settled (requireDocument_ok hrequire).1 _ _ _

theorem markStorageUnavailableTransaction_only {now : Time} {id : Uuid} {u : Unit}
    (h : markStorageUnavailableTransaction now db id = .ok (u, db')) : Only id db db' := by
  obtain ⟨d, hrequire, h⟩ := bind_eq_ok.mp h
  cases pure_eq_ok.mp h
  exact only_settled (requireDocument_ok hrequire).1 _ _ _

theorem Only.refl (id : Uuid) (db : Database) : Only id db db :=
  ⟨fun _ => rfl, fun _ _ => rfl, fun _ _ => rfl⟩

theorem replaceEmbeddingsTransaction_only {now : Time} {id userId : Uuid}
    {embeddings : List Embedding} {answer : Bool}
    (h : replaceEmbeddingsTransaction now db id userId embeddings = .ok (answer, db')) :
    Only id db db' := by
  obtain ⟨_, -, h⟩ := bind_eq_ok.mp h
  split at h
  · cases pure_eq_ok.mp h
    exact Only.refl _ _
  · next d hreindexable =>
      obtain ⟨hd, -, -⟩ := reindexable_eq_some hreindexable
      dsimp only at h
      split at h
      · cases h
      · cases pure_eq_ok.mp h
        have hd' := (Database.document?_rewriteChunks db
          (reembedded ((orderedChunks db id).zip embeddings)) (reembedded_id _)
          (reembedded_documentId _) id).trans hd
        exact (only_reembedded db id embeddings).trans (only_settled hd' _ _ _)

theorem markReindexFailedTransaction_only {pd : PrivateData} {now : Time} {id userId : Uuid}
    {error : String} {answer : Bool}
    (h : markReindexFailedTransaction pd now db id userId error = .ok (answer, db')) :
    Only id db db' := by
  obtain ⟨_, -, h⟩ := bind_eq_ok.mp h
  split at h
  · cases pure_eq_ok.mp h
    exact Only.refl _ _
  · next d hreindexable =>
      obtain ⟨stored, -, h⟩ := bind_eq_ok.mp h
      cases pure_eq_ok.mp h
      exact only_settled (reindexable_eq_some hreindexable).1 _ _ _

/-- A new document without a webpage row is not a webpage document. -/
theorem viewOf_withDocument {t : Table Uuid Document Document.id} {d : Document}
    (ht : t.rows = db.documents.rows ++ [d]) (hfresh : db.document? d.id = none) (other : Uuid) :
    viewOf (db.withDocument t d ht) other = viewOf db other := by
  by_cases hne : other = d.id
  · subst hne
    have hnone : db.webpage? d.id = none := Database.webpage?_of_document?_none hfresh
    rw [viewOf_eq_none_iff.mpr hnone, viewOf_eq_none_iff]
    exact hnone
  · refine viewOf_congr ?_ rfl rfl
    rw [Database.document?_withDocument, if_neg hne]

/-- What a call does to webpage documents: nothing, or one move. -/
def PageStep (opens : Opens) (db db' : Database) : Prop :=
  (∀ id, viewOf db' id = viewOf db id) ∨ ∃ id move, Moves opens db id move db'

theorem PageStep.of_same (h : db' = db) : PageStep opens db db' :=
  .inl (fun _ => by rw [h])

/-- A job on a file document. -/
theorem pageStep_of_job {α : Type} {id : Uuid} {t : Except Exc (α × Database)}
    (hfile : db.webpage? id = none)
    (h : ∀ {a : α} {db' : Database}, t = .ok (a, db') → Only id db db') :
    PageStep opens db (Outcome.ofTransaction db t).db := by
  rcases Outcome.ofTransaction_cases db t with ⟨e, -, ho⟩ | ⟨a, db', ht, ho⟩
  · rw [ho]
    exact .of_same rfl
  · rw [ho]
    exact .inl ((h ht).views hfile)

/-- Every writing call makes a step of the webpage machine, jobs being for file documents only.
Calls that are not about webpages leave the views of webpage documents alone, or delete them. -/
theorem ServiceCall.pageStep {cipher : PrivateDataCipher} (huses : cipher.Uses opens)
    (c : ServiceCall) (hfile : ∀ id, c.jobDocument = some id → db.webpage? id = none) :
    PageStep opens db (c.exec cipher.privateData db).db := by
  cases c with
  | createDocument documentId now userId knowledgeKey name mime =>
      refine .inl ?_
      rcases Outcome.db_of_afterCommit (Eq.refl (createProcessingDocument cipher.privateData
        documentId now db userId knowledgeKey name mime)) with hsame | ⟨d, db', ht, hdb⟩
      · exact fun id => congrArg (viewOf · id) hsame
      · obtain ⟨_, -, h⟩ := bind_eq_ok.mp ht
        obtain ⟨storedName, -, h⟩ := bind_eq_ok.mp h
        obtain ⟨_, hinsert, h⟩ := bind_eq_ok.mp h
        cases pure_eq_ok.mp h
        obtain ⟨hfresh, t, hrows, rfl⟩ := Database.insertDocument_ok (mapError_eq_ok.mp hinsert)
        exact fun id => (congrArg (viewOf · id) hdb).trans (viewOf_withDocument hrows hfresh id)
  | createWebpage lib documentId now userId knowledgeKey name urls autoSync =>
      rcases create_spec huses (Eq.refl (Webpages.create cipher.privateData lib documentId now db
        userId knowledgeKey name urls autoSync)) with ⟨hsame, -⟩ | ⟨-, hmoves⟩
      · exact .of_same hsame
      · exact .inr ⟨_, _, hmoves⟩
  | enqueue now documentId userId =>
      rcases enqueue_spec opens (Eq.refl (Webpages.enqueue cipher.privateData now db documentId
        userId)) with ⟨hsame, -⟩ | ⟨v, -, hmoves, -⟩
      · exact .of_same hsame
      · exact .inr ⟨_, _, hmoves⟩
  | setAutoSync now documentId userId autoSync =>
      rcases setAutoSync_spec opens (Eq.refl (Webpages.setAutoSync cipher.privateData now db
        documentId userId autoSync)) with ⟨hsame, -⟩ | ⟨v, -, hmoves, -⟩
      · exact .of_same hsame
      · exact .inr ⟨_, _, hmoves⟩
  | claimWebpage token now documentId owner =>
      rcases claimCandidate_spec opens (Eq.refl (claimCandidate cipher.privateData token now db
        documentId owner)) with ⟨hsame, -⟩ | ⟨v, claim, -, -, -, -, -, -, -, hmoves, -⟩
      · exact .of_same hsame
      · exact .inr ⟨_, _, hmoves⟩
  | finish uuid4 now claim content contentHash chunks embeddings =>
      rcases finish_spec huses (Eq.refl (Webpages.finish cipher.privateData uuid4 now db claim
        content contentHash chunks embeddings)) with
        ⟨hsame, -⟩ | ⟨-, v, -, ⟨-, hmoves⟩ | ⟨-, cs, es, -, -, hmoves⟩⟩
      · exact .of_same hsame
      · exact .inr ⟨_, _, hmoves⟩
      · exact .inr ⟨_, _, hmoves⟩
  | fail now claim error =>
      rcases fail_spec huses (Eq.refl (Webpages.fail cipher.privateData now db claim error)) with
        ⟨hsame, -⟩ | ⟨-, v, -, hmoves⟩
      · exact .of_same hsame
      · exact .inr ⟨_, _, hmoves⟩
  | replaceChunks uuid4 now documentId chunks embeddings =>
      exact pageStep_of_job (hfile _ rfl) replaceTransaction_only
  | markFailed now documentId error =>
      exact pageStep_of_job (hfile _ rfl) markFailedTransaction_only
  | markStorageUnavailable now documentId =>
      exact pageStep_of_job (hfile _ rfl) markStorageUnavailableTransaction_only
  | replaceEmbeddings now documentId userId embeddings =>
      exact pageStep_of_job (hfile _ rfl) replaceEmbeddingsTransaction_only
  | markReindexFailed now documentId userId error =>
      exact pageStep_of_job (hfile _ rfl) markReindexFailedTransaction_only
  | createRevision uuid4 revisionId now userId selected =>
      refine .inl ?_
      rcases Outcome.db_of_ofTransaction (Eq.refl (Knowledge.create cipher.privateData uuid4
        revisionId now db userId selected)) with hsame | ⟨record, db', ht, hdb⟩
      · exact fun id => congrArg (viewOf · id) hsame
      · have hcreated := created_of_ok ht
        intro id
        refine (congrArg (viewOf · id) hdb).trans (viewOf_congr ?_ ?_ ?_)
        · rw [Database.document?, Database.document?, hcreated.documents]
        · rw [Database.webpage?, Database.webpage?, hcreated.webpages]
        · rw [Database.chunksOf, Database.chunksOf, hcreated.chunks]
  | deleteDocument documentId userId =>
      rcases deleteDocument_spec opens (Eq.refl (Http.deleteDocument db documentId userId)) with
        ⟨hviews, -⟩ | hmoves
      · exact .inl hviews
      · exact .inr ⟨_, _, hmoves⟩

/-- Every webpage document of a run is settled: published with chunks, or never published. -/
theorem settled_of_run {steps : List ServiceStep} (h : Trace (Serves opens) .empty steps db)
    (hfiles : ∀ st ∈ steps, ForFiles st) : Everywhere (PageView.Settled opens) db := by
  refine h.holds_through (Everywhere.of_noWebpages rfl) ?_
  intro st hst hstep hsettled
  have hpage := st.call.call.pageStep hstep.uses (hfiles st hst)
  rw [hstep.exec] at hpage
  rcases hpage with hviews | ⟨id, move, hmoves⟩
  · exact fun id v hv => hsettled id v ((hviews id).symm.trans hv)
  · exact hmoves.everywhere (fun _ hnew => hnew.settled) (fun _ _ _ => settled_step) hsettled

end Views

end PortRag.Service
