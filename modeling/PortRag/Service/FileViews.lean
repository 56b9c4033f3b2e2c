import PortRag.Ingest.Reindex
import PortRag.Service.Frames

set_option autoImplicit false

/-!
# File documents

A document without a webpage row is a file document.  One specification for each transaction says
what it leaves of every file document: ingest and reindex settle the one that they are about, a
creation adds one, and every other call leaves each of them as it is or deletes it.
-/

namespace PortRag.Service

open PortRag.Foundation PortRag.Db PortRag.Security PortRag.Http PortRag.Ingest PortRag.Webpages
  PortRag.Knowledge

/-- The rows of a file document, its chunks in the order of `seq`. -/
structure FileView where
  document : Document
  chunks : List DocumentChunk

/-- The rows of a file document in the database. -/
def fileOf (db : Database) (id : Uuid) : Option FileView :=
  match db.document? id, db.webpage? id with
  | some document, none => some ⟨document, orderedChunks db id⟩
  | _, _ => none

/-- The view with its document settled. -/
def FileView.settled (v : FileView) (status : DocumentStatus) (error : Option String)
    (now : Time) : FileView :=
  { v with document := settledDocument v.document status error now }

/-- The view with a new embedding for each chunk. -/
def FileView.reembed (v : FileView) (embeddings : List Embedding) : FileView :=
  ⟨v.document, List.zipWith (fun (c : DocumentChunk) e => { c with embedding := e }) v.chunks
    embeddings⟩

variable {db db' mid : Database} {id other : Uuid} {v : FileView}

/-! ## Views -/

theorem fileOf_eq_some_iff : fileOf db id = some v ↔
    db.document? id = some v.document ∧ db.webpage? id = none ∧ orderedChunks db id = v.chunks := by
  unfold fileOf
  constructor
  · intro h
    split at h
    · next document hd hp =>
        cases h
        exact ⟨hd, hp, rfl⟩
    · cases h
  · rintro ⟨hd, hp, hc⟩
    rw [hd, hp, hc]

theorem fileOf_eq_none_of_webpage {page : DocumentWebpage} (h : db.webpage? id = some page) :
    fileOf db id = none := by
  unfold fileOf
  rw [h]
  cases db.document? id <;> rfl

/-- New vectors change nothing that does not read them. -/
theorem FileView.map_reembed {β : Type} {f : DocumentChunk → β}
    (hf : ∀ (c : DocumentChunk) e, f { c with embedding := e } = f c) {embeddings : List Embedding}
    (h : v.chunks.length = embeddings.length) :
    (v.reembed embeddings).chunks.map f = v.chunks.map f := by
  unfold reembed
  rw [List.map_zipWith]
  refine List.ext_getElem ?_ ?_
  · rw [List.length_zipWith, List.length_map, h, Nat.min_self]
  · intro i hi hi'
    rw [List.getElem_zipWith, List.getElem_map, hf]

theorem fileOf_document_id (h : fileOf db id = some v) : v.document.id = id :=
  Database.document?_id (fileOf_eq_some_iff.mp h).1

/-- Equal reads give equal views. -/
theorem fileOf_congr (hd : db'.document? id = db.document? id)
    (hp : db'.webpage? id = db.webpage? id) (hc : db'.chunksOf id = db.chunksOf id) :
    fileOf db' id = fileOf db id := by
  simp only [fileOf, orderedChunks, hd, hp, hc]

/-- The status and the error of one document change. -/
theorem fileOf_settled {d : Document} (hd : db.document? id = some d) (status : DocumentStatus)
    (error : Option String) (now : Time) (other : Uuid) :
    fileOf (db.updateDocument (settledDocument d status error now)) other =
      if other = id then (fileOf db id).map (fun v => v.settled status error now)
      else fileOf db other := by
  split
  · next hother =>
      subst hother
      have hnew := document?_settled hd status error now
      unfold fileOf
      rw [hnew, hd, Database.webpage?_updateDocument]
      cases db.webpage? other <;> rfl
  · next hother =>
      have hid : (settledDocument d status error now).id = id :=
        (Database.document?_id hd : d.id = id)
      have hold : db.document? (settledDocument d status error now).id = some d := by rw [hid, hd]
      refine fileOf_congr ?_ rfl rfl
      rw [Database.document?_updateDocument hold, hid, if_neg hother]

/-! ## Calls that leave file documents alone -/

/-- Each file document is one of before, with the same rows. -/
def KeepsFiles (db db' : Database) : Prop :=
  ∀ id v, fileOf db' id = some v → fileOf db id = some v

theorem KeepsFiles.refl (db : Database) : KeepsFiles db db := fun _ _ h => h

theorem KeepsFiles.of_eq (h : db' = db) : KeepsFiles db db' := h ▸ .refl db

/-- A change of the rows of one webpage document keeps the files: a webpage document is none. -/
theorem keepsFiles_update {w : PageView} (hw : viewOf db id = some w) {document : Document}
    {page : DocumentWebpage} (hd : document.id = id) (hp : page.documentId = id)
    (hmid : ∀ other, mid.document? other = db.document? other ∧
      mid.webpage? other = db.webpage? other ∧
      (other ≠ id → mid.chunksOf other = db.chunksOf other)) :
    KeepsFiles db ((mid.updateDocument document).updateWebpage page) := by
  obtain ⟨hdocument, hpage, -⟩ := viewOf_eq_some_iff.mp hw
  have hold : mid.document? document.id = some w.document := by
    rw [hd, (hmid id).1]
    exact hdocument
  have hrow : (mid.updateDocument document).webpage? page.documentId = some w.page := by
    rw [hp, Database.webpage?_updateDocument, (hmid id).2.1]
    exact hpage
  intro other v hv
  by_cases hother : other = id
  · subst hother
    have hnew : ((mid.updateDocument document).updateWebpage page).webpage? other = some page := by
      rw [Database.webpage?_updateWebpage hrow, if_pos hp.symm]
    rw [fileOf_eq_none_of_webpage hnew] at hv
    cases hv
  · obtain ⟨hdsame, hpsame, hcsame⟩ := hmid other
    have hsame : fileOf ((mid.updateDocument document).updateWebpage page) other =
        fileOf db other := by
      refine fileOf_congr ?_ ?_ (hcsame hother)
      · rw [Database.document?_updateWebpage, Database.document?_updateDocument hold, hd,
          if_neg hother, hdsame]
      · rw [Database.webpage?_updateWebpage hrow, hp, if_neg hother,
          Database.webpage?_updateDocument, hpsame]
    exact hsame ▸ hv

theorem keepsFiles_rows {w : PageView} (hw : viewOf db id = some w) {document : Document}
    {page : DocumentWebpage} (hd : document.id = w.document.id)
    (hp : page.documentId = w.page.documentId) :
    KeepsFiles db ((db.updateDocument document).updateWebpage page) :=
  keepsFiles_update hw (hd.trans (viewOf_document_id hw)) (hp.trans (viewOf_page_id hw))
    fun _ => ⟨rfl, rfl, fun _ => rfl⟩

/-- What is kept of the documents is kept whole. -/
theorem keepsFiles_keepDocuments (db : Database) (p : Document → Bool) :
    KeepsFiles db (db.keepDocuments p) := by
  intro id v hv
  obtain ⟨hd, hp, hc⟩ := fileOf_eq_some_iff.mp hv
  rw [Database.document?_keepDocuments] at hd
  obtain ⟨hold, hkeep⟩ := Option.filter_eq_some_iff.mp hd
  have hany : (db.document? id).any p = true := by
    rw [hold, Option.any_some, hkeep]
  rw [Database.webpage?_keepDocuments, if_pos hany] at hp
  rw [orderedChunks, Database.chunksOf_keepDocuments, if_pos hany] at hc
  exact fileOf_eq_some_iff.mpr ⟨hold, hp, hc⟩

theorem keepsFiles_deleteOwner (db : Database) (userId : Uuid) :
    KeepsFiles db (db.deleteOwner userId) :=
  keepsFiles_keepDocuments db (fun d => d.userId ≠ userId)

theorem keepsFiles_createWebpage {pd : PrivateData} {lib : UrlFunctions} {documentId userId : Uuid}
    {now : Time} {knowledgeKey : String} {name : Option String} {urls : List String}
    {autoSync : Bool} {record : DocumentRecord}
    (h : createTransaction pd lib documentId now db userId knowledgeKey name urls autoSync
      = .ok (record, db')) : KeepsFiles db db' := by
  obtain ⟨normalized, storedName, storedUrls, storedContent, mid, -, -, -, -, hmid, hpage, -⟩ :=
    createTransaction_ok h
  obtain ⟨hfresh, t, ht, rfl⟩ := Database.insertDocument_ok hmid
  obtain ⟨w, hw, hfk, rfl⟩ := Database.insertWebpage_ok hpage
  intro id v hv
  have hdocument := Database.document?_withDocument ht id
  have hwebpage := Database.webpage?_withWebpage hw hfk id
  by_cases hid : id = documentId
  · rw [if_pos (show id = (newWebpage documentId storedUrls storedContent autoSync).documentId
      from hid)] at hwebpage
    rw [fileOf_eq_none_of_webpage hwebpage] at hv
    cases hv
  · rw [if_neg (show id ≠ (newWebpage documentId storedUrls storedContent autoSync).documentId
      from hid)] at hwebpage
    refine Eq.trans (Eq.symm (fileOf_congr ?_ ?_ ?_)) hv
    · exact hdocument.trans (if_neg hid)
    · exact hwebpage
    · rfl

theorem keepsFiles_finish {pd : PrivateData} {uuid4 : Nat → Uuid} {now : Time}
    {claim : WebpageClaim} {content contentHash : String} {chunks : Option (List IngestChunk)}
    {embeddings : Option (List Embedding)} {o : Outcome Bool}
    (h : Webpages.finish pd uuid4 now db claim content contentHash chunks embeddings = o) :
    KeepsFiles db o.db := by
  rcases complete_cases h with ⟨hidle, -⟩ | ⟨-, ht⟩
  · rw [hidle]
    exact .refl db
  rcases completeTransaction_ok ht with ⟨hfalse, -⟩ |
    ⟨-, -, w, hw, -, -, document', page', mid, hpublish, hdb⟩
  · cases hfalse
  rw [hdb]
  obtain ⟨-, -, rfl, hchunks⟩ := publish_ok hpublish
  rcases hchunks with ⟨-, rfl, rfl⟩ | ⟨cs, es, rows, stored, -, -, -, -, hrows, -, hinserted, rfl⟩
  · exact keepsFiles_rows hw rfl rfl
  · have hid := viewOf_document_id hw
    rw [hid] at hinserted hrows
    refine keepsFiles_update hw hid (viewOf_page_id hw) ?_
    intro other
    obtain ⟨hd, hp, hc⟩ := viewOf_replaceChunks (chunkRows_documentId hrows) hinserted other
    exact ⟨hd, hp, fun hother => hc.trans (if_neg hother)⟩

theorem keepsFiles_fail {pd : PrivateData} {now : Time} {claim : WebpageClaim} {error : String}
    {o : Outcome Bool} (h : Webpages.fail pd now db claim error = o) : KeepsFiles db o.db := by
  rcases complete_cases h with ⟨hidle, -⟩ | ⟨-, ht⟩
  · rw [hidle]
    exact .refl db
  rcases completeTransaction_ok ht with ⟨hfalse, -⟩ |
    ⟨-, -, w, hw, -, -, document', page', stored, hfailure, -, hdb⟩
  · cases hfalse
  rw [hdb]
  obtain ⟨rfl, ⟨-, _, -, rfl⟩ | ⟨-, rfl⟩⟩ := recordFailure_ok hfailure
  · exact keepsFiles_rows hw rfl rfl
  · exact keepsFiles_rows hw rfl rfl

/-- A new revision leaves every table of a file document alone. -/
theorem keepsFiles_createRevision {pd : PrivateData} {uuid4 : Nat → Uuid}
    {revisionId userId : Uuid} {now : Time} {selected : Option (List Uuid)}
    {record : KnowledgeRevisionRecord}
    (h : Knowledge.createTransaction pd uuid4 revisionId now db userId selected =
      .ok (record, db')) : KeepsFiles db db' := by
  obtain ⟨frozen, withRevision, withChunks, -, hrevision, -, hchunks, hmembers, -⟩ :=
    Knowledge.createTransaction_ok h
  obtain ⟨_, _, _, rfl⟩ := Database.insertRevision_ok hrevision
  obtain ⟨_, _, _, rfl⟩ := Database.insertRevisionChunks_ok hchunks
  obtain ⟨_, _, _, rfl⟩ := Database.insertRevisionWebpages_ok hmembers
  intro id v hv
  rw [← hv]
  exact (fileOf_congr rfl rfl rfl).symm

/-- Whether a call is one of file ingest or reindex, or creates a file document. -/
def ServiceCall.ofFiles : ServiceCall → Bool
  | .createDocument .. => true
  | .replaceChunks .. => true
  | .markFailed .. => true
  | .markStorageUnavailable .. => true
  | .replaceEmbeddings .. => true
  | .markReindexFailed .. => true
  | _ => false

/-- Every other call leaves each file document as it is, or deletes it.  The calls of jobs and
reindexes are left out here, each having a lemma of its own. -/
theorem ServiceCall.keepsFiles (pd : PrivateData) (c : ServiceCall) (hc : c.ofFiles = false)
    (db : Database) : KeepsFiles db (c.exec pd db).db := by
  cases c with
  | createDocument => cases hc
  | replaceChunks => cases hc
  | markFailed => cases hc
  | markStorageUnavailable => cases hc
  | replaceEmbeddings => cases hc
  | markReindexFailed => cases hc
  | createWebpage lib documentId now userId knowledgeKey name urls autoSync =>
      rcases Outcome.db_of_ofTransaction (o := Webpages.create pd lib documentId now db userId
        knowledgeKey name urls autoSync) rfl with hsame | ⟨record, db', ht, hdb⟩
      · exact .of_eq hsame
      · exact hdb ▸ keepsFiles_createWebpage ht
  | enqueue now documentId userId =>
      rcases Outcome.db_of_afterCommit (o := Webpages.enqueue pd now db documentId userId) rfl with
        hsame | ⟨rows, db', ht, hdb⟩
      · exact .of_eq hsame
      · rcases enqueueTransaction_ok ht with ⟨-, rfl⟩ | ⟨w, hw, -, -, -, -, rfl⟩
        · exact .of_eq hdb
        · exact hdb ▸ keepsFiles_rows hw (enqueued_id _ _ _) rfl
  | setAutoSync now documentId userId autoSync =>
      rcases Outcome.db_of_afterCommit (o := Webpages.setAutoSync pd now db documentId userId
        autoSync) rfl with hsame | ⟨rows, db', ht, hdb⟩
      · exact .of_eq hsame
      · rcases setAutoSyncTransaction_ok ht with ⟨-, rfl⟩ | ⟨w, hw, -, -, rfl⟩
        · exact .of_eq hdb
        · obtain ⟨hid, hpid⟩ := autoSyncSet_id now w.document w.page autoSync
          exact hdb ▸ keepsFiles_rows hw hid hpid
  | claimWebpage token now documentId owner =>
      rcases Outcome.db_of_ofTransaction (o := claimCandidate pd token now db documentId owner) rfl
        with hsame | ⟨claim, db', ht, hdb⟩
      · exact .of_eq hsame
      · rcases claimTransaction_ok ht with ⟨-, rfl⟩ | ⟨w, _, -, hw, -, -, -, -, rfl⟩
        · exact .of_eq hdb
        · exact hdb ▸ keepsFiles_rows hw rfl rfl
  | finish uuid4 now claim content contentHash chunks embeddings => exact keepsFiles_finish rfl
  | fail now claim error => exact keepsFiles_fail rfl
  | createRevision uuid4 revisionId now userId selected =>
      rcases Outcome.db_of_ofTransaction (o := Knowledge.create pd uuid4 revisionId now db userId
        selected) rfl with hsame | ⟨record, db', ht, hdb⟩
      · exact .of_eq hsame
      · exact hdb ▸ keepsFiles_createRevision ht
  | deleteDocument documentId userId =>
      rcases Outcome.db_of_ofTransaction (o := Http.deleteDocument db documentId userId) rfl with
        hsame | ⟨deleted, db', ht, hdb⟩
      · exact .of_eq hsame
      · obtain ⟨-, rfl, -⟩ := deleteTransaction_ok ht
        exact hdb ▸ keepsFiles_keepDocuments db _

/-! ## Calls about one file document -/

/-- The failure of one document is recorded. -/
def MarksFailed (db : Database) (id : Uuid) (db' : Database) : Prop :=
  ∃ error now, ∀ other, fileOf db' other =
    if other = id then (fileOf db id).map (fun v => v.settled .failed error now)
    else fileOf db other

theorem marksFailed_settled {d : Document} (hd : db.document? id = some d) (error : Option String)
    (now : Time) : MarksFailed db id (db.updateDocument (settledDocument d .failed error now)) :=
  ⟨error, now, fileOf_settled hd .failed error now⟩

theorem markFailed_marksFailed {pd : PrivateData} {now : Time} {error : String} {o : Outcome Unit}
    (h : Ingest.markFailed pd now db id error = o) : o.db = db ∨ MarksFailed db id o.db := by
  rcases Outcome.db_of_ofTransaction h with hsame | ⟨_, db', ht, hdb⟩
  · exact .inl hsame
  obtain ⟨d, hrequire, ht⟩ := bind_eq_ok.mp ht
  obtain ⟨stored, -, ht⟩ := bind_eq_ok.mp ht
  cases pure_eq_ok.mp ht
  rw [hdb]
  exact .inr (marksFailed_settled (requireDocument_ok hrequire).1 _ _)

theorem markStorageUnavailable_marksFailed {now : Time} {o : Outcome Unit}
    (h : Ingest.markStorageUnavailable now db id = o) : o.db = db ∨ MarksFailed db id o.db := by
  rcases Outcome.db_of_ofTransaction h with hsame | ⟨_, db', ht, hdb⟩
  · exact .inl hsame
  obtain ⟨d, hrequire, ht⟩ := bind_eq_ok.mp ht
  cases pure_eq_ok.mp ht
  rw [hdb]
  exact .inr (marksFailed_settled (requireDocument_ok hrequire).1 _ _)

theorem markReindexFailed_marksFailed {pd : PrivateData} {now : Time} {userId : Uuid}
    {error : String} {o : Outcome Bool}
    (h : Ingest.markReindexFailed pd now db id userId error = o) :
    o.db = db ∨ MarksFailed db id o.db := by
  rcases Outcome.db_of_ofTransaction h with hsame | ⟨answer, db', ht, hdb⟩
  · exact .inl hsame
  obtain ⟨-, hfalse, htrue⟩ := preserves_marked ht
  rw [hdb]
  cases answer with
  | false => exact .inl (hfalse rfl)
  | true =>
      obtain ⟨d, stored, hfound, rfl⟩ := htrue rfl
      exact .inr (marksFailed_settled (reindexable_eq_some hfound).1 _ _)

/-- A publication replaces the chunks of its document, with rows that stand for the given chunks, or
it leaves the database as it was; it is no concern of any other file. -/
theorem replaceChunks_files {opens : Opens} {cipher : PrivateDataCipher} (huses : cipher.Uses opens)
    {uuid4 : Nat → Uuid} {now : Time} {chunks : List IngestChunk} {embeddings : List Embedding}
    {o : Outcome Unit}
    (h : replaceChunksAndMarkReady cipher.privateData uuid4 now db id chunks embeddings = o) :
    o.db = db ∨ o.result = .ok () ∧ (∀ other, other ≠ id → fileOf o.db other = fileOf db other) ∧
      ∀ v', fileOf o.db id = some v' → ∃ v rows, fileOf db id = some v ∧
        RowsStand opens v.document.userId.str id chunks embeddings rows ∧
        v' = ⟨settledDocument v.document .ready none now,
          rows.mergeSort (fun a b => a.seq ≤ b.seq)⟩ := by
  rcases Outcome.ofTransaction_cases db (replaceTransaction cipher.privateData uuid4 now db id
    chunks embeddings) with ⟨e, -, ho⟩ | ⟨_, db', ht, ho⟩
  · exact .inl (congrArg Outcome.db (h.symm.trans ho))
  have hresult := congrArg Outcome.result (h.symm.trans ho)
  have hdb := congrArg Outcome.db (h.symm.trans ho)
  obtain ⟨d, hrequire, ht⟩ := bind_eq_ok.mp ht
  obtain ⟨rows, hrows, ht⟩ := bind_eq_ok.mp ht
  obtain ⟨mid, hinserted, ht⟩ := bind_eq_ok.mp ht
  cases pure_eq_ok.mp ht
  have hd := (requireDocument_ok hrequire).1
  have hstand := chunkRows_stand huses hrows
  have hreplaced := viewOf_replaceChunks hstand.documentId_of_mem hinserted
  have hsettled := fileOf_settled ((hreplaced id).1.trans hd) .ready none now
  rw [hdb]
  refine .inr ⟨hresult, ?_, ?_⟩
  · intro other hother
    obtain ⟨hdsame, hpsame, hcsame⟩ := hreplaced other
    rw [hsettled, if_neg hother]
    exact fileOf_congr hdsame hpsame (hcsame.trans (if_neg hother))
  · intro v' hv'
    rw [hsettled, if_pos rfl] at hv'
    obtain ⟨w, hw, rfl⟩ := Option.map_eq_some_iff.mp hv'
    obtain ⟨hwd, hwp, hwc⟩ := fileOf_eq_some_iff.mp hw
    obtain ⟨hdsame, hpsame, hcsame⟩ := hreplaced id
    have hdocument : d = w.document := Option.some.inj (hd.symm.trans (hdsame.symm.trans hwd))
    refine ⟨⟨w.document, orderedChunks db id⟩, rows, ?_, hdocument ▸ hstand, ?_⟩
    · exact fileOf_eq_some_iff.mpr ⟨hdsame.symm.trans hwd, hpsame.symm.trans hwp, rfl⟩
    · rw [orderedChunks, hcsame, if_pos rfl] at hwc
      unfold FileView.settled
      rw [← hwc]

/-- A reindex that finds its document gives each chunk of it the vector at its position. -/
theorem replaceEmbeddings_files {now : Time} {userId : Uuid} {embeddings : List Embedding}
    {o : Outcome Bool} (h : replaceEmbeddingsAndMarkReady now db id userId embeddings = o) :
    o.db = db ∨ (∀ v, fileOf db id = some v → v.chunks.length = embeddings.length) ∧
      ∀ other, fileOf o.db other = if other = id
        then (fileOf db id).map (fun v => (v.reembed embeddings).settled .ready none now)
        else fileOf db other := by
  rcases Outcome.db_of_ofTransaction h with hsame | ⟨_, db', ht, hdb⟩
  · exact .inl hsame
  rw [hdb]
  obtain ⟨_, -, ht⟩ := bind_eq_ok.mp ht
  split at ht
  · cases pure_eq_ok.mp ht
    exact .inl rfl
  next d hfound =>
    dsimp only at ht
    split at ht
    · cases ht
    next hlength =>
      have hlength' := Classical.not_not.mp hlength
      cases pure_eq_ok.mp ht
      have hd := (reindexable_eq_some hfound).1
      refine .inr ⟨?_, fun other => ?_⟩
      · intro v hv
        rw [← (fileOf_eq_some_iff.mp hv).2.2]
        exact hlength'
      · have hrewritten := Database.document?_rewriteChunks db
          (reembedded ((orderedChunks db id).zip embeddings)) (reembedded_id _)
          (reembedded_documentId _)
        rw [fileOf_settled ((hrewritten id).trans hd)]
        split
        · have hordered := orderedChunks_reembedded hlength'
          unfold fileOf
          rw [hrewritten, hordered, Database.webpage?_rewriteChunks]
          cases db.document? id with
          | none => rfl
          | some d => cases db.webpage? id <;> rfl
        · next hother =>
            refine fileOf_congr (hrewritten other) rfl ?_
            rw [Database.chunksOf_rewriteChunks]
            refine (List.map_congr_left ?_).trans (List.map_id _)
            intro c hc
            obtain ⟨hmem, hdoc⟩ := Database.mem_chunksOf.mp hc
            exact reembedded_of_ne hmem (hdoc ▸ hother)

/-- A creation adds a document without chunks. -/
theorem createDocument_files {pd : PrivateData} {documentId userId : Uuid} {now : Time}
    {knowledgeKey name mime : String} {o : Outcome DocumentRecord}
    (h : createProcessingDocument pd documentId now db userId knowledgeKey name mime = o) :
    o.db = db ∨ ∃ document, document.status = .processing ∧ ∀ other, fileOf o.db other =
      if other = documentId then some ⟨document, []⟩ else fileOf db other := by
  rcases Outcome.db_of_afterCommit h with hsame | ⟨document, db', htransaction, hdb⟩
  · exact .inl hsame
  obtain ⟨_, -, h⟩ := bind_eq_ok.mp htransaction
  obtain ⟨storedName, -, h⟩ := bind_eq_ok.mp h
  obtain ⟨_, hinsert, h⟩ := bind_eq_ok.mp h
  cases pure_eq_ok.mp h
  rw [hdb]
  obtain ⟨hfresh, t, ht, rfl⟩ := Database.insertDocument_ok (mapError_eq_ok.mp hinsert)
  refine .inr ⟨processingDocument documentId userId knowledgeKey storedName mime now, rfl,
    fun other => ?_⟩
  have hdocument := Database.document?_withDocument ht other
  split
  · next hother =>
      subst hother
      rw [if_pos (show other = (processingDocument other userId knowledgeKey storedName mime now).id
        from rfl)] at hdocument
      refine fileOf_eq_some_iff.mpr ⟨hdocument, ?_, ?_⟩
      · rw [Database.webpage?_withDocument]
        exact Database.webpage?_of_document?_none hfresh
      · have hnone : db.chunksOf other = [] := Database.chunksOf_of_document?_none hfresh
        rw [orderedChunks, Database.chunksOf_withDocument, hnone, List.mergeSort_nil]
  · next hother => exact fileOf_congr (hdocument.trans (if_neg hother)) rfl rfl

end PortRag.Service
