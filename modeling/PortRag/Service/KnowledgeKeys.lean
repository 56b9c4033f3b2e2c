import PortRag.Service.Frames

set_option autoImplicit false

/-!
# Knowledge keys

The pairs of owner and knowledge key over all documents.  A document keeps its pair as long as
it is there; a call adds one pair at most, and only one that no document has.
-/

namespace PortRag.Db.Database

open PortRag.Foundation

/-- Owner and knowledge key of each document. -/
def keyPairs (db : Database) : List (Uuid × String) :=
  db.documents.rows.map (fun d => (d.userId, d.knowledgeKey))

/-- The rows that the unique index `uq_documents_user_knowledge_key` allows. -/
def UniqueKeys (db : Database) : Prop := db.keyPairs.Nodup

/-- Whether a document of this owner has the key: what the unique index looks up. -/
def keyTaken (db : Database) (userId : Uuid) (knowledgeKey : String) : Bool :=
  db.documents.rows.any (fun d => d.userId = userId ∧ d.knowledgeKey = knowledgeKey)

/-- At most one document of an owner has a knowledge key. -/
theorem UniqueKeys.eq {db : Database} (h : db.UniqueKeys) {a b : Document}
    (ha : a ∈ db.documents.rows) (hb : b ∈ db.documents.rows) (howner : a.userId = b.userId)
    (hkey : a.knowledgeKey = b.knowledgeKey) : a = b :=
  List.inj_on_of_nodup_map h ha hb (Prod.ext howner hkey)

theorem keyTaken_iff {db : Database} {userId : Uuid} {knowledgeKey : String} :
    db.keyTaken userId knowledgeKey = true ↔ (userId, knowledgeKey) ∈ db.keyPairs := by
  rw [keyTaken, List.any_eq_true, keyPairs, List.mem_map]
  constructor
  · rintro ⟨d, hd, hsame⟩
    obtain ⟨howner, hkey⟩ := of_decide_eq_true hsame
    exact ⟨d, hd, Prod.ext howner hkey⟩
  · rintro ⟨d, hd, hpair⟩
    exact ⟨d, hd, decide_eq_true (Prod.mk.inj hpair)⟩

/-- An accepted insert found its key free. -/
theorem not_mem_keyPairs_of_insertDocument {db db' : Database} {d : Document}
    (h : db.insertDocument d = .ok db') : (d.userId, d.knowledgeKey) ∉ db.keyPairs := by
  unfold insertDocument at h
  split at h
  · cases h
  · split at h
    · cases h
    · next hfree => exact fun hmem => hfree (keyTaken_iff.mpr hmem)

theorem keyPairs_withDocument {db : Database} {t : Table Uuid Document Document.id} {d : Document}
    (ht : t.rows = db.documents.rows ++ [d]) :
    (db.withDocument t d ht).keyPairs = db.keyPairs ++ [(d.userId, d.knowledgeKey)] := by
  rw [keyPairs, withDocument_documents, ht, List.map_append]
  rfl

/-- An update that keeps owner and key of its row. -/
theorem keyPairs_updateDocument {db : Database} {d old : Document}
    (hold : db.document? d.id = some old) (howner : d.userId = old.userId)
    (hkey : d.knowledgeKey = old.knowledgeKey) :
    (db.updateDocument d).keyPairs = db.keyPairs := by
  obtain ⟨hmem, hid⟩ := document?_eq_some_iff.mp hold
  rw [keyPairs, updateDocument_documents, Table.put_rows, List.map_map]
  apply List.map_congr_left
  intro row hrow
  rw [Function.comp_apply]
  split
  · next hrowid =>
      have hsame : row = old := Table.eq_of_key hrow hmem (hrowid.trans hid.symm)
      rw [hsame, howner, hkey]
  · rfl

end PortRag.Db.Database

namespace PortRag.Service

open PortRag.Foundation PortRag.Db PortRag.Security PortRag.Http PortRag.Ingest PortRag.Webpages
  PortRag.Knowledge

/-- What a step does to the pairs: some go, or one comes that was not there. -/
def Keyed (db db' : Database) : Prop :=
  db'.keyPairs.Sublist db.keyPairs ∨ ∃ p, p ∉ db.keyPairs ∧ db'.keyPairs = db.keyPairs ++ [p]

section Keyed

variable {db mid db' : Database}

theorem keyed_of_eq (h : db'.keyPairs = db.keyPairs) : Keyed db db' :=
  .inl (h ▸ List.Sublist.refl _)

theorem Keyed.uniqueKeys (h : Keyed db db') (hunique : db.UniqueKeys) : db'.UniqueKeys := by
  rcases h with hsub | ⟨p, hfresh, hpairs⟩
  · exact hunique.sublist hsub
  · rw [Database.UniqueKeys, hpairs, List.nodup_append]
    refine ⟨hunique, List.nodup_singleton p, ?_⟩
    intro a ha b hb hab
    rw [List.mem_singleton] at hb
    exact hfresh (hb ▸ hab ▸ ha)

theorem keyed_keepDocuments (p : Document → Bool) : Keyed db (db.keepDocuments p) :=
  .inl (List.filter_sublist.map _)

theorem keyed_insertDocument {d : Document} (h : db.insertDocument d = .ok db') : Keyed db db' := by
  have hfree := Database.not_mem_keyPairs_of_insertDocument h
  obtain ⟨-, t, ht, rfl⟩ := Database.insertDocument_ok h
  exact .inr ⟨_, hfree, Database.keyPairs_withDocument ht⟩

/-- The update of both rows of a webpage document. -/
theorem keyed_rows {v : PageView} {id : Uuid} (hv : viewOf db id = some v) {document : Document}
    {page : DocumentWebpage} (hid : document.id = v.document.id)
    (howner : document.userId = v.document.userId)
    (hkey : document.knowledgeKey = v.document.knowledgeKey) :
    Keyed db ((db.updateDocument document).updateWebpage page) := by
  have hold : db.document? document.id = some v.document := by
    rw [hid, viewOf_document_id hv]
    exact (viewOf_eq_some_iff.mp hv).1
  exact keyed_of_eq (Database.keyPairs_updateDocument hold howner hkey)

/-- Settling a document keeps its pair. -/
theorem keyed_settled {id : Uuid} {d : Document} (hd : db.document? id = some d)
    (status : DocumentStatus) (error : Option String) (now : Time) :
    Keyed db (db.updateDocument (settledDocument d status error now)) := by
  have hold : db.document? (settledDocument d status error now).id = some d :=
    (congrArg db.document? (Database.document?_id hd)).trans hd
  exact keyed_of_eq (Database.keyPairs_updateDocument hold rfl rfl)

/-- The new chunks of a document are no concern of the document table. -/
theorem documents_of_insertChunks {id : Uuid} {rows : List DocumentChunk}
    (h : (db.deleteChunks id).insertChunks rows = .ok db') : db'.documents = db.documents := by
  obtain ⟨_, _, _, rfl⟩ := Database.insertChunks_ok h
  rfl

/-- The pairs depend on the document table alone. -/
theorem Keyed.of_documents (hmid : mid.documents = db.documents) (h : Keyed mid db') :
    Keyed db db' := by
  have hpairs : mid.keyPairs = db.keyPairs := by rw [Database.keyPairs, hmid, Database.keyPairs]
  rw [Keyed, hpairs] at h
  exact h

end Keyed

/-! ## The calls -/

section Calls

variable {pd : PrivateData} {db db' : Database}

theorem createTransaction_keyed {lib : UrlFunctions} {documentId userId : Uuid} {now : Time}
    {knowledgeKey : String} {name : Option String} {urls : List String} {autoSync : Bool}
    {record : DocumentRecord}
    (h : createTransaction pd lib documentId now db userId knowledgeKey name urls autoSync
      = .ok (record, db')) : Keyed db db' := by
  obtain ⟨_, _, _, _, mid, -, -, -, -, hmid, hpage, -⟩ := createTransaction_ok h
  obtain ⟨_, _, _, rfl⟩ := Database.insertWebpage_ok hpage
  have hkeyed : Keyed db mid := keyed_insertDocument hmid
  exact hkeyed

theorem enqueued_knowledgeKey (now : Time) (document : Document) (page : DocumentWebpage) :
    (enqueued now document page).1.knowledgeKey = document.knowledgeKey := by
  unfold enqueued
  split <;> rfl

theorem enqueueTransaction_keyed {now : Time} {documentId userId : Uuid}
    {rows : Option (Document × DocumentWebpage)}
    (h : enqueueTransaction now db documentId userId = .ok (rows, db')) : Keyed db db' := by
  rcases enqueueTransaction_ok h with ⟨-, rfl⟩ | ⟨v, hv, -, -, -, -, rfl⟩
  · exact keyed_of_eq rfl
  · exact keyed_rows hv (enqueued_id _ _ _) enqueued_userId (enqueued_knowledgeKey _ _ _)

theorem autoSyncSet_knowledgeKey (now : Time) (document : Document) (page : DocumentWebpage)
    (autoSync : Bool) :
    (autoSyncSet now document page autoSync).1.knowledgeKey = document.knowledgeKey := by
  unfold autoSyncSet
  split <;> rfl

theorem setAutoSyncTransaction_keyed {now : Time} {documentId userId : Uuid} {autoSync : Bool}
    {rows : Option (Document × DocumentWebpage)}
    (h : setAutoSyncTransaction now db documentId userId autoSync = .ok (rows, db')) :
    Keyed db db' := by
  rcases setAutoSyncTransaction_ok h with ⟨-, rfl⟩ | ⟨v, hv, -, -, rfl⟩
  · exact keyed_of_eq rfl
  · exact keyed_rows hv (autoSyncSet_id now v.document v.page autoSync).1
      (autoSyncSet_fields now v.document v.page autoSync).1 (autoSyncSet_knowledgeKey _ _ _ _)

theorem claimTransaction_keyed {token documentId owner : Uuid} {now : Time}
    {claim : Option WebpageClaim}
    (h : claimTransaction pd token now db documentId owner = .ok (claim, db')) : Keyed db db' := by
  rcases claimTransaction_ok h with ⟨-, rfl⟩ | ⟨v, _, -, hv, -, -, -, -, rfl⟩
  · exact keyed_of_eq rfl
  · exact keyed_rows hv rfl rfl rfl

theorem finish_keyed {uuid4 : Nat → Uuid} {now : Time} {claim : WebpageClaim}
    {content contentHash : String} {chunks : Option (List IngestChunk)}
    {embeddings : Option (List Embedding)} {o : Outcome Bool}
    (h : Webpages.finish pd uuid4 now db claim content contentHash chunks embeddings = o) :
    Keyed db o.db := by
  rcases complete_cases h with ⟨hidle, -⟩ | ⟨-, ht⟩
  · exact keyed_of_eq (congrArg Database.keyPairs hidle)
  rcases completeTransaction_ok ht with ⟨hfalse, -⟩ |
    ⟨-, -, v, hv, -, -, document', page', mid, hpublish, hdb⟩
  · cases hfalse
  obtain ⟨-, -, rfl, hchunks⟩ := publish_ok hpublish
  rw [hdb]
  rcases hchunks with ⟨-, rfl, rfl⟩ | ⟨cs, es, rows, stored, -, -, -, -, hrows, -, hinserted, rfl⟩
  · exact keyed_rows hv rfl rfl rfl
  · have hid := viewOf_document_id hv
    rw [hid] at hinserted hrows
    obtain ⟨hd, hp, -⟩ := viewOf_eq_some_iff.mp hv
    obtain ⟨hd', hp', -⟩ := viewOf_replaceChunks (chunkRows_documentId hrows) hinserted
      claim.documentId
    have hview : viewOf mid claim.documentId
        = some ⟨v.document, v.page, mid.chunksOf claim.documentId⟩ :=
      viewOf_eq_some_iff.mpr ⟨hd'.trans hd, hp'.trans hp, rfl⟩
    refine Keyed.of_documents (documents_of_insertChunks hinserted) ?_
    exact keyed_rows hview rfl rfl rfl

theorem fail_keyed {now : Time} {claim : WebpageClaim} {error : String} {o : Outcome Bool}
    (h : Webpages.fail pd now db claim error = o) : Keyed db o.db := by
  rcases complete_cases h with ⟨hidle, -⟩ | ⟨-, ht⟩
  · exact keyed_of_eq (congrArg Database.keyPairs hidle)
  rcases completeTransaction_ok ht with ⟨hfalse, -⟩ |
    ⟨-, -, v, hv, -, -, document', page', stored, hfailure, -, hdb⟩
  · cases hfalse
  obtain ⟨rfl, hdocument⟩ := recordFailure_ok hfailure
  rw [hdb]
  rcases hdocument with ⟨-, _, -, rfl⟩ | ⟨-, rfl⟩ <;> exact keyed_rows hv rfl rfl rfl

theorem createProcessingDocument_keyed {documentId userId : Uuid} {now : Time}
    {knowledgeKey name mime : String} {o : Outcome DocumentRecord}
    (h : createProcessingDocument pd documentId now db userId knowledgeKey name mime = o) :
    Keyed db o.db := by
  rcases Outcome.db_of_afterCommit h with hsame | ⟨document, db', htransaction, hdb⟩
  · exact keyed_of_eq (congrArg Database.keyPairs hsame)
  obtain ⟨_, -, h⟩ := bind_eq_ok.mp htransaction
  obtain ⟨storedName, -, h⟩ := bind_eq_ok.mp h
  obtain ⟨_, hinsert, h⟩ := bind_eq_ok.mp h
  cases pure_eq_ok.mp h
  rw [hdb]
  exact keyed_insertDocument (mapError_eq_ok.mp hinsert)

theorem replaceTransaction_keyed {uuid4 : Nat → Uuid} {now : Time} {documentId : Uuid}
    {chunks : List IngestChunk} {embeddings : List Embedding} {u : Unit}
    (h : replaceTransaction pd uuid4 now db documentId chunks embeddings = .ok (u, db')) :
    Keyed db db' := by
  obtain ⟨d, hrequire, h⟩ := bind_eq_ok.mp h
  obtain ⟨rows, -, h⟩ := bind_eq_ok.mp h
  obtain ⟨mid, hinserted, h⟩ := bind_eq_ok.mp h
  cases pure_eq_ok.mp h
  have hdocuments := documents_of_insertChunks hinserted
  have hd : mid.document? documentId = some d := by
    rw [Database.document?, hdocuments]
    exact (requireDocument_ok hrequire).1
  exact (keyed_settled hd _ _ _).of_documents hdocuments

theorem markFailedTransaction_keyed {now : Time} {documentId : Uuid} {error : String} {u : Unit}
    (h : markFailedTransaction pd now db documentId error = .ok (u, db')) : Keyed db db' := by
  obtain ⟨d, hrequire, h⟩ := bind_eq_ok.mp h
  obtain ⟨stored, -, h⟩ := bind_eq_ok.mp h
  cases pure_eq_ok.mp h
  exact keyed_settled (requireDocument_ok hrequire).1 _ _ _

theorem markStorageUnavailableTransaction_keyed {now : Time} {documentId : Uuid} {u : Unit}
    (h : markStorageUnavailableTransaction now db documentId = .ok (u, db')) : Keyed db db' := by
  obtain ⟨d, hrequire, h⟩ := bind_eq_ok.mp h
  cases pure_eq_ok.mp h
  exact keyed_settled (requireDocument_ok hrequire).1 _ _ _

theorem replaceEmbeddingsTransaction_keyed {now : Time} {documentId userId : Uuid}
    {embeddings : List Embedding} {answer : Bool}
    (h : replaceEmbeddingsTransaction now db documentId userId embeddings = .ok (answer, db')) :
    Keyed db db' := by
  obtain ⟨_, -, h⟩ := bind_eq_ok.mp h
  split at h
  · cases pure_eq_ok.mp h
    exact keyed_of_eq rfl
  · next d hreindexable =>
      obtain ⟨hd, -⟩ := reindexable_eq_some hreindexable
      dsimp only at h
      split at h
      · cases h
      · cases pure_eq_ok.mp h
        have hrewritten := Database.document?_rewriteChunks db
          (reembedded ((orderedChunks db documentId).zip embeddings)) (reembedded_id _)
          (reembedded_documentId _) documentId
        exact (keyed_settled (hrewritten.trans hd) _ _ _).of_documents rfl

theorem markReindexFailedTransaction_keyed {now : Time} {documentId userId : Uuid}
    {error : String} {answer : Bool}
    (h : markReindexFailedTransaction pd now db documentId userId error = .ok (answer, db')) :
    Keyed db db' := by
  obtain ⟨_, -, h⟩ := bind_eq_ok.mp h
  split at h
  · cases pure_eq_ok.mp h
    exact keyed_of_eq rfl
  · next d hreindexable =>
      obtain ⟨stored, -, h⟩ := bind_eq_ok.mp h
      cases pure_eq_ok.mp h
      exact keyed_settled (reindexable_eq_some hreindexable).1 _ _ _

theorem createRevision_keyed {uuid4 : Nat → Uuid} {revisionId userId : Uuid} {now : Time}
    {selected : Option (List Uuid)} {record : KnowledgeRevisionRecord}
    (h : Knowledge.createTransaction pd uuid4 revisionId now db userId selected
      = .ok (record, db')) : Keyed db db' := by
  obtain ⟨_, _, _, -, hrevision, -, hchunks, hmembers, -⟩ := Knowledge.createTransaction_ok h
  obtain ⟨-, _, _, rfl⟩ := Database.insertRevision_ok hrevision
  obtain ⟨_, _, _, rfl⟩ := Database.insertRevisionChunks_ok hchunks
  obtain ⟨_, _, _, rfl⟩ := Database.insertRevisionWebpages_ok hmembers
  exact keyed_of_eq rfl

theorem deleteTransaction_keyed {documentId userId : Uuid} {deleted : Bool}
    (h : deleteTransaction db documentId userId = .ok (deleted, db')) : Keyed db db' := by
  obtain ⟨-, rfl, -⟩ := deleteTransaction_ok h
  exact keyed_keepDocuments _

theorem keyed_ofTransaction {α : Type} {t : Except Exc (α × Database)}
    (h : ∀ {a : α} {db' : Database}, t = .ok (a, db') → Keyed db db') :
    Keyed db (Outcome.ofTransaction db t).db := by
  rcases Outcome.ofTransaction_cases db t with ⟨e, -, ho⟩ | ⟨a, db', ht, ho⟩
  · rw [ho]
    exact keyed_of_eq rfl
  · rw [ho]
    exact h ht

theorem keyed_afterCommit {α β : Type} {t : Except Exc (β × Database)} (read : β → Except Exc α)
    (h : ∀ {b : β} {db' : Database}, t = .ok (b, db') → Keyed db db') :
    Keyed db (Outcome.afterCommit db t read).db := by
  rcases Outcome.afterCommit_cases db t read with ⟨e, -, ho⟩ | ⟨b, db', ht, ho⟩
  · rw [ho]
    exact keyed_of_eq rfl
  · rw [ho]
    exact h ht

end Calls

/-- Every call adds one free pair at most. -/
theorem ServiceCall.keyed (c : ServiceCall) (pd : PrivateData) (db : Database) :
    Keyed db (c.exec pd db).db := by
  cases c with
  | createDocument documentId now userId knowledgeKey name mime =>
      exact createProcessingDocument_keyed rfl
  | createWebpage lib documentId now userId knowledgeKey name urls autoSync =>
      exact keyed_ofTransaction createTransaction_keyed
  | enqueue now documentId userId =>
      exact keyed_afterCommit (committedDetail pd) enqueueTransaction_keyed
  | setAutoSync now documentId userId autoSync =>
      exact keyed_afterCommit (committedDetail pd) setAutoSyncTransaction_keyed
  | claimWebpage token now documentId owner => exact keyed_ofTransaction claimTransaction_keyed
  | finish uuid4 now claim content contentHash chunks embeddings => exact finish_keyed rfl
  | fail now claim error => exact fail_keyed rfl
  | replaceChunks uuid4 now documentId chunks embeddings =>
      exact keyed_ofTransaction replaceTransaction_keyed
  | markFailed now documentId error => exact keyed_ofTransaction markFailedTransaction_keyed
  | markStorageUnavailable now documentId =>
      exact keyed_ofTransaction markStorageUnavailableTransaction_keyed
  | replaceEmbeddings now documentId userId embeddings =>
      exact keyed_ofTransaction replaceEmbeddingsTransaction_keyed
  | markReindexFailed now documentId userId error =>
      exact keyed_ofTransaction markReindexFailedTransaction_keyed
  | createRevision uuid4 revisionId now userId selected =>
      exact keyed_ofTransaction createRevision_keyed
  | deleteDocument documentId userId => exact keyed_ofTransaction deleteTransaction_keyed

end PortRag.Service
