import PortRag.Webpages.Machine

set_option autoImplicit false

/-!
# The repository refines the page machine

One specification a method: what an outcome of the method says about the call, and which
move of the page machine it made.  Later modules never unfold a method again.
-/

namespace PortRag.Webpages

open PortRag.Foundation PortRag.Db PortRag.Security PortRag.Http PortRag.Ingest

/-- The rows of a webpage document in the database. -/
def viewOf (db : Database) (id : Uuid) : Option PageView :=
  match db.document? id, db.webpage? id with
  | some document, some page => some ⟨document, page, db.chunksOf id⟩
  | _, _ => none

/-- One accepted call: a move on the rows of `id`, and nothing else. -/
structure Moves (opens : Opens) (db : Database) (id : Uuid) (move : Move) (db' : Database) :
    Prop where
  rows : PageMove opens (viewOf db id) move (viewOf db' id)
  others : ∀ other, other ≠ id → viewOf db' other = viewOf db other
  erasedOwners : db'.erasedOwners = db.erasedOwners

/-! ## Views -/

theorem viewOf_eq_some_iff {db : Database} {id : Uuid} {v : PageView} :
    viewOf db id = some v ↔
      db.document? id = some v.document ∧ db.webpage? id = some v.page ∧
        db.chunksOf id = v.chunks := by
  unfold viewOf
  constructor
  · intro h
    split at h
    · next document page hd hp =>
        cases h
        exact ⟨hd, hp, rfl⟩
    · cases h
  · rintro ⟨hd, hp, hc⟩
    rw [hd, hp, hc]

theorem viewOf_eq_none_iff {db : Database} {id : Uuid} :
    viewOf db id = none ↔ db.webpage? id = none := by
  unfold viewOf
  constructor
  · intro h
    split at h
    · cases h
    · next hnone =>
        cases hp : db.webpage? id with
        | none => rfl
        | some page =>
            obtain ⟨document, hd⟩ := Database.document?_of_webpage? hp
            exact absurd hp (hnone document page hd)
  · intro h
    rw [h]
    split <;> simp_all

theorem viewOf_document_id {db : Database} {id : Uuid} {v : PageView}
    (h : viewOf db id = some v) : v.document.id = id :=
  Database.document?_id (viewOf_eq_some_iff.mp h).1

theorem viewOf_page_id {db : Database} {id : Uuid} {v : PageView}
    (h : viewOf db id = some v) : v.page.documentId = id :=
  Database.webpage?_id (viewOf_eq_some_iff.mp h).2.1

/-- Equal reads give equal views. -/
theorem viewOf_congr {db db' : Database} {id : Uuid} (hd : db'.document? id = db.document? id)
    (hp : db'.webpage? id = db.webpage? id) (hc : db'.chunksOf id = db.chunksOf id) :
    viewOf db' id = viewOf db id := by
  simp only [viewOf, hd, hp, hc]

theorem select_eq_some_iff {db : Database} {id userId : Uuid} {document : Document}
    {page : DocumentWebpage} :
    select db id userId = some (document, page) ↔
      document.userId = userId ∧ viewOf db id = some ⟨document, page, db.chunksOf id⟩ := by
  unfold select viewOf
  cases hd : db.document? id with
  | none => simp
  | some found =>
      cases hp : db.webpage? id with
      | none => simp
      | some row =>
          simp only [Option.some.injEq, PageView.mk.injEq, and_true]
          constructor
          · intro h
            split at h
            · next howner =>
                cases h
                exact ⟨howner, rfl, rfl⟩
            · cases h
          · rintro ⟨howner, rfl, rfl⟩
            rw [if_pos howner]

theorem select_of_viewOf {db : Database} {documentId userId : Uuid} {v : PageView}
    (hv : viewOf db documentId = some v)
    (howner : v.document.userId = userId) :
    select db documentId userId = some (v.document, v.page) := by
  have hchunks := (viewOf_eq_some_iff.mp hv).2.2
  refine select_eq_some_iff.mpr ⟨howner, ?_⟩
  rw [hchunks]
  exact hv

/-- An update of both rows of one document. -/
theorem viewOf_update {db : Database} {id : Uuid} {v : PageView} (hv : viewOf db id = some v)
    {document : Document} {page : DocumentWebpage} (hd : document.id = id)
    (hp : page.documentId = id) (other : Uuid) :
    viewOf ((db.updateDocument document).updateWebpage page) other =
      if other = id then some ⟨document, page, v.chunks⟩ else viewOf db other := by
  obtain ⟨hdocument, hpage, hchunks⟩ := viewOf_eq_some_iff.mp hv
  subst hd
  have hupdateD := Database.document?_updateDocument hdocument other
  have hpage' : (db.updateDocument document).webpage? page.documentId = some v.page := by
    rw [Database.webpage?_updateDocument, hp]
    exact hpage
  have hupdateP := Database.webpage?_updateWebpage hpage' other
  rw [hp] at hupdateP
  split
  · next hother =>
      subst hother
      rw [if_pos rfl] at hupdateD hupdateP
      exact viewOf_eq_some_iff.mpr ⟨hupdateD, hupdateP, hchunks⟩
  · next hother =>
      rw [if_neg hother] at hupdateD hupdateP
      exact viewOf_congr hupdateD hupdateP rfl

theorem viewOf_update_self {db : Database} {id : Uuid} {v : PageView}
    (hv : viewOf db id = some v) {document : Document} {page : DocumentWebpage}
    (hd : document.id = v.document.id) (hp : page.documentId = v.page.documentId) :
    viewOf ((db.updateDocument document).updateWebpage page) id =
      some (v.withRows (document, page)) :=
  (viewOf_update hv (hd.trans (viewOf_document_id hv)) (hp.trans (viewOf_page_id hv)) id).trans
    (if_pos rfl)

/-- The move of an update of both rows. -/
theorem Moves.of_update {opens : Opens} {db base : Database} {id : Uuid} {v : PageView}
    {move : Move} {document : Document} {page : DocumentWebpage} {chunks : List DocumentChunk}
    (hv : viewOf db id = some v) (hbase : viewOf base id = some { v with chunks := chunks })
    (hothers : ∀ other, other ≠ id → viewOf base other = viewOf db other)
    (herased : base.erasedOwners = db.erasedOwners)
    (hd : document.id = v.document.id) (hp : page.documentId = v.page.documentId)
    (hmove : PageMove opens (some v) move (some ⟨document, page, chunks⟩)) :
    Moves opens db id move ((base.updateDocument document).updateWebpage page) := by
  have hupdate := viewOf_update hbase (hd.trans (viewOf_document_id hv))
    (hp.trans (viewOf_page_id hv))
  refine ⟨?_, ?_, herased⟩
  · rw [hv, hupdate, if_pos rfl]
    exact hmove
  · intro other hother
    rw [hupdate, if_neg hother]
    exact hothers other hother

/-! ## Invariants of all documents -/

/-- Every webpage document satisfies `I`. -/
def Everywhere (I : PageView → Prop) (db : Database) : Prop :=
  ∀ id v, viewOf db id = some v → I v

theorem Everywhere.of_noWebpages {I : PageView → Prop} {db : Database}
    (h : db.webpages.rows = []) : Everywhere I db := by
  intro id v hv
  obtain ⟨-, hp, -⟩ := viewOf_eq_some_iff.mp hv
  obtain ⟨hmem, -⟩ := Database.webpage?_eq_some_iff.mp hp
  rw [h] at hmem
  cases hmem

/-- What new documents satisfy and moves keep holds of every document after a move. -/
theorem Moves.everywhere {opens : Opens} {I : PageView → Prop}
    (hnew : ∀ v, v.New opens → I v)
    (hstep : ∀ v move v', PageMove opens (some v) move (some v') → I v → I v')
    {db db' : Database} {id : Uuid} {move : Move} (h : Moves opens db id move db')
    (hdb : Everywhere I db) : Everywhere I db' := by
  intro other v' hv'
  by_cases hother : other = id
  · subst hother
    have hrows := h.rows
    rw [hv'] at hrows
    cases hv : viewOf db other with
    | none =>
        rw [hv] at hrows
        cases hrows with
        | created hv'' => exact hnew v' hv''
    | some v =>
        rw [hv] at hrows
        exact hstep v move v' hrows (hdb other v hv)
  · rw [h.others other hother] at hv'
    exact hdb other v' hv'

/-- A confirmation found the given hash in the row. -/
theorem Moves.of_confirmed {opens : Opens} {db db' : Database} {id token : Uuid}
    {contentHash : String} (h : Moves opens db id (.confirmed token contentHash) db') :
    ∃ v, viewOf db id = some v ∧ v.page.contentHash = some contentHash := by
  have hrows := h.rows
  generalize viewOf db id = before at hrows
  generalize viewOf db' id = after at hrows
  cases hrows with
  | confirmed _ hsame => exact ⟨_, rfl, hsame⟩

/-- A claim found a due row and holds it. -/
theorem Moves.of_claimed {opens : Opens} {db db' : Database} {id token : Uuid} {now : Time}
    (h : Moves opens db id (.claimed token now) db') :
    ∃ v, viewOf db id = some v ∧ due now v.page = true ∧
      viewOf db' id = some (v.withRows (claimed token now v.document v.page)) := by
  have hrows := h.rows
  generalize viewOf db id = before at hrows
  generalize viewOf db' id = after at hrows
  cases hrows with
  | claimed hdue => exact ⟨_, rfl, hdue, rfl⟩

/-! ## Registration and requests -/

section Methods

variable {opens : Opens} {cipher : PrivateDataCipher} {db : Database}

/-- An accepted insert of a document with its webpage row shows as a new view. -/
theorem viewOf_insert {document : Document} {page : DocumentWebpage} {mid db' : Database}
    (hpage : page.documentId = document.id) (hd : db.insertDocument document = .ok mid)
    (hp : mid.insertWebpage page = .ok db') (other : Uuid) :
    viewOf db' other =
      if other = document.id then some ⟨document, page, []⟩ else viewOf db other := by
  obtain ⟨hfresh, t, ht, rfl⟩ := Database.insertDocument_ok hd
  obtain ⟨u, hu, hfk, rfl⟩ := Database.insertWebpage_ok hp
  have hdocument := Database.document?_withDocument ht other
  have hwebpage := Database.webpage?_withWebpage hu hfk other
  rw [hpage] at hwebpage
  split
  · next hother =>
      subst hother
      rw [if_pos rfl] at hdocument hwebpage
      have hchunks : db.chunksOf document.id = [] := Database.chunksOf_of_document?_none hfresh
      exact viewOf_eq_some_iff.mpr ⟨hdocument, hwebpage, hchunks⟩
  · next hother =>
      rw [if_neg hother] at hdocument hwebpage
      exact viewOf_congr hdocument hwebpage rfl

/-- What a committed registration did: the columns that it encrypted, and the two rows that it
inserted. -/
theorem createTransaction_ok {pd : PrivateData} {lib : UrlFunctions} {documentId userId : Uuid}
    {now : Time} {knowledgeKey : String} {name : Option String} {urls : List String}
    {autoSync : Bool} {record : DocumentRecord} {db' : Database}
    (h : createTransaction pd lib documentId now db userId knowledgeKey name urls autoSync
      = .ok (record, db')) :
    ∃ normalized storedName storedUrls storedContent mid,
      lockActiveOwner db userId = .ok () ∧
      pd.encryptText (displayName lib name normalized) ⟨userId.str, documentId.str, "document:name"⟩
        = .ok storedName ∧
      normalized.zipIdx.mapM (fun u => pd.encryptText u.1
        ⟨userId.str, documentId.str, urlField u.2⟩) = .ok storedUrls ∧
      pd.encryptText "" ⟨userId.str, documentId.str, "webpage:content"⟩ = .ok storedContent ∧
      db.insertDocument (processingDocument documentId userId knowledgeKey storedName "text/html"
        now) = .ok mid ∧
      mid.insertWebpage (newWebpage documentId storedUrls storedContent autoSync) = .ok db' ∧
      toPrivateRecord pd (processingDocument documentId userId knowledgeKey storedName "text/html"
        now) (some (newWebpage documentId storedUrls storedContent autoSync)) = .ok record := by
  unfold createTransaction at h
  split at h
  · obtain ⟨normalized, _, h⟩ := bind_eq_ok.mp h
    obtain ⟨_, hlock, h⟩ := bind_eq_ok.mp h
    obtain ⟨storedName, hname, h⟩ := bind_eq_ok.mp h
    obtain ⟨mid, hmid, h⟩ := bind_eq_ok.mp h
    obtain ⟨storedUrls, hurls, h⟩ := bind_eq_ok.mp h
    obtain ⟨storedContent, hcontent, h⟩ := bind_eq_ok.mp h
    obtain ⟨_, hpage, h⟩ := bind_eq_ok.mp h
    obtain ⟨_, hrecord, h⟩ := bind_eq_ok.mp h
    cases pure_eq_ok.mp h
    exact ⟨normalized.eraseDups, storedName, storedUrls, storedContent, mid, hlock, hname, hurls,
      hcontent, mapError_eq_ok.mp hmid, hpage, hrecord⟩
  · cases h

/-- `create` refuses without a trace, or registers a new queued document. -/
theorem create_spec (huses : cipher.Uses opens) {lib : UrlFunctions} {documentId userId : Uuid}
    {now : Time} {knowledgeKey : String} {name : Option String} {urls : List String}
    {autoSync : Bool} {o : Outcome DocumentRecord}
    (h : create cipher.privateData lib documentId now db userId knowledgeKey name urls autoSync
      = o) :
    (o.db = db ∧ ∃ e, o.result = .error e) ∨
      (∃ record, o.result = .ok record) ∧ Moves opens db documentId .created o.db := by
  subst h
  rcases Outcome.ofTransaction_cases db
      (createTransaction cipher.privateData lib documentId now db userId knowledgeKey name urls
        autoSync) with ⟨e, _, ho⟩ | ⟨record, db', ht, ho⟩
  · rw [create, ho]
    exact .inl ⟨rfl, e, rfl⟩
  · rw [create, ho]
    refine .inr ⟨⟨record, rfl⟩, ?_⟩
    obtain ⟨normalized, storedName, storedUrls, storedContent, mid, -, hname, hurls, hcontent,
      hdocument, hpage, -⟩ := createTransaction_ok ht
    have hview := viewOf_insert rfl hdocument hpage
    have hfresh : db.document? documentId = none := (Database.insertDocument_ok hdocument).1
    have hnone := viewOf_eq_none_iff.mpr (Database.webpage?_of_document?_none hfresh)
    refine ⟨?_, ?_, ?_⟩
    · rw [hnone, (hview documentId).trans (if_pos rfl)]
      refine .created ⟨rfl, rfl, rfl, rfl, ?_, ?_, ?_⟩
      · exact ⟨_, encryptText_stands huses hname⟩
      · exact ⟨_, encryptUrls_stand huses hurls⟩
      · exact encryptText_stands huses hcontent
    · intro other hother
      exact (hview other).trans (if_neg hother)
    · obtain ⟨-, t, ht, rfl⟩ := Database.insertDocument_ok hdocument
      obtain ⟨u, hu, hfk, rfl⟩ := Database.insertWebpage_ok hpage
      rfl

/-- What a committed request did. -/
theorem enqueueTransaction_ok {now : Time} {documentId userId : Uuid}
    {rows : Option (Document × DocumentWebpage)} {db' : Database}
    (h : enqueueTransaction now db documentId userId = .ok (rows, db')) :
    (rows = none ∧ db' = db) ∨
      ∃ v, viewOf db documentId = some v ∧ v.document.userId = userId ∧
        v.page.syncStatus ≠ .queued ∧ v.page.syncStatus ≠ .running ∧
        rows = some (enqueued now v.document v.page) ∧
        db' = (db.updateDocument (enqueued now v.document v.page).1).updateWebpage
          (enqueued now v.document v.page).2 := by
  obtain ⟨_, _, h⟩ := bind_eq_ok.mp h
  split at h
  · cases pure_eq_ok.mp h
    exact .inl ⟨rfl, rfl⟩
  · next document page hselect =>
      obtain ⟨howner, hview⟩ := select_eq_some_iff.mp hselect
      split at h
      · cases h
      · next hfree =>
          rw [not_or] at hfree
          cases pure_eq_ok.mp h
          exact .inr ⟨_, hview, howner, hfree.1, hfree.2, rfl, rfl⟩

/-- `enqueue` leaves the database alone, or queues the document and then reads it. -/
theorem enqueue_spec (opens : Opens) {now : Time} {documentId userId : Uuid} {pd : PrivateData}
    {o : Outcome (Option WebpageDetail)} (h : enqueue pd now db documentId userId = o) :
    (o.db = db ∧ ∀ d, o.result ≠ .ok (some d)) ∨
      ∃ v, viewOf db documentId = some v ∧ Moves opens db documentId .enqueued o.db ∧
        viewOf o.db documentId = some (v.withRows (enqueued now v.document v.page)) ∧
        o.result = committedDetail pd (some (enqueued now v.document v.page)) := by
  subst h
  rcases Outcome.afterCommit_cases db (enqueueTransaction now db documentId userId)
      (committedDetail pd) with ⟨e, _, ho⟩ | ⟨rows, db', ht, ho⟩
  · rw [enqueue, ho]
    exact .inl ⟨rfl, by simp⟩
  · rw [enqueue, ho]
    rcases enqueueTransaction_ok ht with ⟨rfl, rfl⟩ | ⟨v, hv, _, hqueued, hrunning, rfl, rfl⟩
    · exact .inl ⟨rfl, by simp [committedDetail]⟩
    · refine .inr ⟨v, hv, ?_, ?_, rfl⟩
      · exact Moves.of_update hv hv (fun _ _ => rfl) rfl (enqueued_id _ _ _) rfl
          (.enqueued hqueued hrunning)
      · exact viewOf_update_self hv (enqueued_id _ _ _) rfl

/-- What a committed switch did. -/
theorem setAutoSyncTransaction_ok {now : Time} {documentId userId : Uuid} {autoSync : Bool}
    {rows : Option (Document × DocumentWebpage)} {db' : Database}
    (h : setAutoSyncTransaction now db documentId userId autoSync = .ok (rows, db')) :
    (rows = none ∧ db' = db) ∨
      ∃ v, viewOf db documentId = some v ∧ v.document.userId = userId ∧
        rows = some (autoSyncSet now v.document v.page autoSync) ∧
        db' = (db.updateDocument (autoSyncSet now v.document v.page autoSync).1).updateWebpage
          (autoSyncSet now v.document v.page autoSync).2 := by
  obtain ⟨_, _, h⟩ := bind_eq_ok.mp h
  split at h
  · cases pure_eq_ok.mp h
    exact .inl ⟨rfl, rfl⟩
  · next document page hselect =>
      obtain ⟨howner, hview⟩ := select_eq_some_iff.mp hselect
      cases pure_eq_ok.mp h
      exact .inr ⟨_, hview, howner, rfl, rfl⟩

/-- `set_auto_sync` leaves the database alone, or sets the switch and then reads it. -/
theorem setAutoSync_spec (opens : Opens) {now : Time} {documentId userId : Uuid} {autoSync : Bool}
    {pd : PrivateData} {o : Outcome (Option WebpageDetail)}
    (h : setAutoSync pd now db documentId userId autoSync = o) :
    (o.db = db ∧ ∀ d, o.result ≠ .ok (some d)) ∨
      ∃ v, viewOf db documentId = some v ∧
        Moves opens db documentId (.switched autoSync now) o.db ∧
        viewOf o.db documentId
          = some (v.withRows (autoSyncSet now v.document v.page autoSync)) ∧
        o.result = committedDetail pd (some (autoSyncSet now v.document v.page autoSync)) := by
  subst h
  rcases Outcome.afterCommit_cases db (setAutoSyncTransaction now db documentId userId autoSync)
      (committedDetail pd) with ⟨e, _, ho⟩ | ⟨rows, db', ht, ho⟩
  · rw [setAutoSync, ho]
    exact .inl ⟨rfl, by simp⟩
  · rw [setAutoSync, ho]
    rcases setAutoSyncTransaction_ok ht with ⟨rfl, rfl⟩ | ⟨v, hv, _, rfl, rfl⟩
    · exact .inl ⟨rfl, by simp [committedDetail]⟩
    · obtain ⟨hd, hp⟩ := autoSyncSet_id now v.document v.page autoSync
      exact .inr ⟨v, hv, Moves.of_update hv hv (fun _ _ => rfl) rfl hd hp .switched,
        viewOf_update_self hv hd hp, rfl⟩

/-! ## Claims -/

/-- What a committed turn of `claim` did. -/
theorem claimTransaction_ok {pd : PrivateData} {token documentId owner : Uuid} {now : Time}
    {claim : Option WebpageClaim} {db' : Database}
    (h : claimTransaction pd token now db documentId owner = .ok (claim, db')) :
    (claim = none ∧ db' = db) ∨
      ∃ v urls, owner ∉ db.erasedOwners ∧ viewOf db documentId = some v ∧
        v.document.userId = owner ∧ due now v.page = true ∧
        readUrls pd owner.str documentId.str v.page.urls = .ok urls ∧
        claim = some {
          documentId := documentId
          userId := owner
          token := token
          urls := urls
          contentHash := v.page.contentHash
          reason := (claimed token now v.document v.page).2.queueReason } ∧
        db' = (db.updateDocument (claimed token now v.document v.page).1).updateWebpage
          (claimed token now v.document v.page).2 := by
  obtain ⟨_, hlock, h⟩ := bind_eq_ok.mp h
  split at h
  · cases pure_eq_ok.mp h
    exact .inl ⟨rfl, rfl⟩
  · next document page hfilter =>
      obtain ⟨hselect, hdue⟩ := Option.filter_eq_some_iff.mp hfilter
      obtain ⟨howner, hview⟩ := select_eq_some_iff.mp hselect
      obtain ⟨urls, hurls, h⟩ := bind_eq_ok.mp h
      cases pure_eq_ok.mp h
      exact .inr ⟨_, urls, lockActiveOwner_ok hlock, hview, howner, hdue, hurls, rfl, rfl⟩

/-- A turn of `claim` leaves the database alone, or claims the document. -/
theorem claimCandidate_spec (opens : Opens) {pd : PrivateData} {token documentId owner : Uuid} {now : Time}
    {o : Outcome (Option WebpageClaim)}
    (h : claimCandidate pd token now db documentId owner = o) :
    (o.db = db ∧ ∀ claim, o.result ≠ .ok (some claim)) ∨
      ∃ v claim, viewOf db documentId = some v ∧ due now v.page = true ∧
        o.result = .ok (some claim) ∧ claim.documentId = documentId ∧ claim.token = token ∧
        claim.contentHash = v.page.contentHash ∧ claim.userId = v.document.userId ∧
        Moves opens db documentId (.claimed token now) o.db ∧
        viewOf o.db documentId = some (v.withRows (claimed token now v.document v.page)) := by
  subst h
  rcases Outcome.ofTransaction_cases db (claimTransaction pd token now db documentId owner)
    with ⟨e, _, ho⟩ | ⟨claim, db', ht, ho⟩
  · rw [claimCandidate, ho]
    exact .inl ⟨rfl, by simp⟩
  · rw [claimCandidate, ho]
    rcases claimTransaction_ok ht with ⟨rfl, rfl⟩ | ⟨v, urls, _, hv, howner, hdue, _, rfl, rfl⟩
    · exact .inl ⟨rfl, by simp⟩
    · exact .inr ⟨v, _, hv, hdue, rfl, rfl, rfl, rfl, howner.symm,
        Moves.of_update hv hv (fun _ _ => rfl) rfl rfl rfl (.claimed hdue),
        viewOf_update_self hv rfl rfl⟩

/-- The loop of `claim` ends in one accepted turn, or leaves the database alone. -/
theorem claimLoop_spec {pd : PrivateData} {clock : Nat → Time} {uuid4 : Nat → Uuid}
    {candidates : List (Uuid × Uuid)} {i : Nat} {o : Outcome (Option WebpageClaim)}
    (h : claimLoop pd clock uuid4 candidates i db = o) :
    (o.db = db ∧ ∀ claim, o.result ≠ .ok (some claim)) ∨
      ∃ j documentId owner claim,
        claimCandidate pd (uuid4 j) (clock j) db documentId owner = o ∧
        o.result = .ok (some claim) := by
  induction candidates generalizing i with
  | nil =>
      subst h
      exact .inl ⟨rfl, by simp [claimLoop]⟩
  | cons candidate rest ih =>
      obtain ⟨documentId, owner⟩ := candidate
      cases htried : claimCandidate pd (uuid4 i) (clock i) db documentId owner with
      | mk result after =>
          have hturn := claimCandidate_spec (fun _ _ => none) htried
          simp only [claimLoop, htried] at h
          split at h
          · next claim =>
              subst h
              exact .inr ⟨i, documentId, owner, claim, htried, rfl⟩
          all_goals
            rcases hturn with ⟨hafter, _⟩ | ⟨_, _, _, _, hclaimed, _⟩
            · dsimp only at hafter
              subst hafter
              first
                | exact ih h
                | subst h
                  exact .inl ⟨rfl, by simp⟩
            · cases hclaimed

/-- `claim` is one accepted turn, or leaves the database alone. -/
theorem claim_spec {pd : PrivateData} {clock : Nat → Time} {uuid4 : Nat → Uuid}
    {o : Outcome (Option WebpageClaim)} (h : claim pd clock uuid4 db = o) :
    (o.db = db ∧ ∀ claim, o.result ≠ .ok (some claim)) ∨
      ∃ j documentId owner claim,
        claimCandidate pd (uuid4 j) (clock j) db documentId owner = o ∧
        o.result = .ok (some claim) :=
  claimLoop_spec h

/-! ## Completion -/

/-- What an accepted publication step did: new rows for new content, or nothing. -/
theorem publish_ok {pd : PrivateData} {uuid4 : Nat → Uuid} {claim : WebpageClaim}
    {document document' : Document} {page page' : DocumentWebpage} {content contentHash : String}
    {chunks : Option (List IngestChunk)} {embeddings : Option (List Embedding)} {db' : Database}
    (h : publish pd uuid4 db claim document page (some content) (some contentHash) chunks
      embeddings = .ok (document', page', db')) :
    content ≠ "" ∧ contentHash ≠ "" ∧
      document' = { document with status := .ready, error := none } ∧
      ((page.contentHash = some contentHash ∧ db' = db ∧
          page' = { page with syncStatus := .idle }) ∨
        ∃ cs es rows stored, page.contentHash ≠ some contentHash ∧
          chunks = some cs ∧ embeddings = some es ∧ cs ≠ [] ∧
          chunkRows pd uuid4 claim.userId.str document.id cs es = .ok rows ∧
          pd.encryptText content ⟨claim.userId.str, document.id.str, "webpage:content"⟩
            = .ok stored ∧
          (db.deleteChunks document.id).insertChunks rows = .ok db' ∧
          page' = { page with
            content := stored, contentHash := some contentHash, syncStatus := .idle }) := by
  unfold publish at h
  split at h
  · next c hash hc hhash =>
      obtain ⟨hceq, hcontent⟩ := Option.filter_eq_some_iff.mp hc
      obtain ⟨hheq, hnonempty⟩ := Option.filter_eq_some_iff.mp hhash
      cases hceq
      cases hheq
      refine ⟨by simpa using hcontent, by simpa using hnonempty, ?_⟩
      split at h
      · next hchanged =>
          split at h
          · next cs es hcs =>
              obtain ⟨hcseq, hcsne⟩ := Option.filter_eq_some_iff.mp hcs
              split at h
              · cases h
              · obtain ⟨rows, hrows, h⟩ := bind_eq_ok.mp h
                obtain ⟨stored, hstored, h⟩ := bind_eq_ok.mp h
                obtain ⟨inserted, hinserted, h⟩ := bind_eq_ok.mp h
                split at h
                · cases h
                · cases pure_eq_ok.mp h
                  refine ⟨rfl, .inr ⟨cs, es, rows, stored, hchanged, hcseq, rfl, ?_, hrows,
                    hstored, hinserted, rfl⟩⟩
                  simpa using hcsne
          · cases h
      · next hsame =>
          cases h
          exact ⟨rfl, .inl ⟨not_not.mp hsame, rfl, rfl⟩⟩
  · cases h

/-- What an accepted failure step did. -/
theorem recordFailure_ok {pd : PrivateData} {claim : WebpageClaim}
    {document document' : Document} {page page' : DocumentWebpage} {error : String}
    (h : recordFailure pd claim document page error = .ok (document', page')) :
    page' = { page with syncStatus := .failed } ∧
      ((page.contentHash = none ∧ ∃ stored,
          pd.encryptText error ⟨claim.userId.str, document.id.str, "document:error"⟩ = .ok stored ∧
          document' = { document with status := .failed, error := some stored }) ∨
        (page.contentHash ≠ none ∧ document' = document)) := by
  unfold recordFailure at h
  split at h
  · next hnone =>
      obtain ⟨stored, hstored, h⟩ := bind_eq_ok.mp h
      cases pure_eq_ok.mp h
      exact ⟨rfl, .inl ⟨hnone, stored, hstored, rfl⟩⟩
  · next hsome =>
      cases h
      exact ⟨rfl, .inr ⟨hsome, rfl⟩⟩

/-- The view of a document whose chunks were replaced. -/
theorem viewOf_replaceChunks {id : Uuid} {rows : List DocumentChunk} {db' : Database}
    (hrows : ∀ row ∈ rows, row.documentId = id)
    (h : (db.deleteChunks id).insertChunks rows = .ok db') (other : Uuid) :
    db'.document? other = db.document? other ∧ db'.webpage? other = db.webpage? other ∧
      db'.chunksOf other = if other = id then rows else db.chunksOf other := by
  obtain ⟨t, ht, hfk, rfl⟩ := Database.insertChunks_ok h
  refine ⟨rfl, rfl, ?_⟩
  rw [Database.chunksOf_withChunks, Database.chunksOf_deleteChunks]
  split
  · next hother =>
      subst hother
      rw [List.nil_append, List.filter_eq_self]
      intro row hrow
      simpa using hrows row hrow
  · next hother =>
      rw [List.append_right_eq_self, List.filter_eq_nil_iff]
      intro row hrow
      rw [hrows row hrow]
      simpa using fun h => hother h.symm

theorem holds_iff {claim : WebpageClaim} {v : PageView} :
    holds claim v.page = true ↔ v.heldBy claim.token := by
  simp [holds, PageView.heldBy]

theorem heldBy_of_holds {claim : WebpageClaim} {v : PageView} (h : holds claim v.page = true) :
    v.heldBy claim.token :=
  holds_iff.mp h

/-- What a committed completion found, whatever it then did: an active owner, and a row of his that
is running under the token of the claim. -/
theorem completeTransaction_ok {pd : PrivateData} {uuid4 : Nat → Uuid} {now : Time}
    {claim : WebpageClaim} {content contentHash error : Option String}
    {chunks : Option (List IngestChunk)} {embeddings : Option (List Embedding)} {answer : Bool}
    {db' : Database}
    (h : completeTransaction pd uuid4 now db claim content contentHash chunks embeddings error
      = .ok (answer, db')) :
    (answer = false ∧ db' = db) ∨
      answer = true ∧ claim.userId ∉ db.erasedOwners ∧
        ∃ v, viewOf db claim.documentId = some v ∧ v.document.userId = claim.userId ∧
          v.heldBy claim.token ∧
          match error with
          | none => ∃ document' page' mid,
              publish pd uuid4 db claim v.document v.page content contentHash chunks embeddings
                = .ok (document', page', mid) ∧
              db' = (mid.updateDocument { document' with updatedAt := now }).updateWebpage
                (closed now (some (v.page.contentHash ≠ contentHash)) none page')
          | some error => ∃ document' page' stored,
              recordFailure pd claim v.document v.page error = .ok (document', page') ∧
              pd.encryptText error ⟨claim.userId.str, v.document.id.str, "webpage:error"⟩
                = .ok stored ∧
              db' = (db.updateDocument { document' with updatedAt := now }).updateWebpage
                (closed now none (some stored) page') := by
  obtain ⟨_, hlock, h⟩ := bind_eq_ok.mp h
  split at h
  · cases pure_eq_ok.mp h
    exact .inl ⟨rfl, rfl⟩
  · next document page hselect =>
      obtain ⟨howner, hview⟩ := select_eq_some_iff.mp hselect
      split at h
      · next hholds =>
          cases error with
          | none =>
              obtain ⟨⟨document', page', mid⟩, hpublish, h⟩ := bind_eq_ok.mp h
              cases pure_eq_ok.mp h
              exact .inr ⟨rfl, lockActiveOwner_ok hlock, _, hview, howner, heldBy_of_holds hholds,
                document', page', mid, hpublish, rfl⟩
          | some error =>
              obtain ⟨⟨document', page'⟩, hfailure, h⟩ := bind_eq_ok.mp h
              obtain ⟨stored, hstored, h⟩ := bind_eq_ok.mp h
              cases pure_eq_ok.mp h
              exact .inr ⟨rfl, lockActiveOwner_ok hlock, _, hview, howner, heldBy_of_holds hholds,
                document', page', stored, hfailure, hstored, rfl⟩
      · cases pure_eq_ok.mp h
        exact .inl ⟨rfl, rfl⟩

/-- A completion whose answer is not `True` leaves the database alone. -/
theorem complete_cases {pd : PrivateData} {uuid4 : Nat → Uuid} {now : Time}
    {claim : WebpageClaim} {content contentHash error : Option String}
    {chunks : Option (List IngestChunk)} {embeddings : Option (List Embedding)}
    {o : Outcome Bool}
    (h : complete pd uuid4 now db claim content contentHash chunks embeddings error = o) :
    (o.db = db ∧ o.result ≠ .ok true) ∨
      o.result = .ok true ∧
        completeTransaction pd uuid4 now db claim content contentHash chunks embeddings error
          = .ok (true, o.db) := by
  subst h
  unfold complete
  split
  · exact .inl ⟨rfl, by simp [Outcome.ofTransaction]⟩
  · rcases Outcome.ofTransaction_cases db (completeTransaction pd uuid4 now db claim content
      contentHash chunks embeddings error) with ⟨e, ht, ho⟩ | ⟨answer, db', ht, ho⟩
    · rw [ho]
      exact .inl ⟨rfl, by simp⟩
    · rw [ho]
      cases answer with
      | true => exact .inr ⟨rfl, ht⟩
      | false =>
          rcases completeTransaction_ok ht with ⟨_, rfl⟩ | ⟨hanswer, _⟩
          · exact .inl ⟨rfl, by simp⟩
          · cases hanswer

/-- An accepted completion came from the owner of a held row. -/
structure Accepts (db : Database) (claim : WebpageClaim) (v : PageView) : Prop where
  active : claim.userId ∉ db.erasedOwners
  view : viewOf db claim.documentId = some v
  owner : v.document.userId = claim.userId
  held : v.heldBy claim.token

/-- `finish` leaves the database alone, or publishes new content, or confirms the old. -/
theorem finish_spec (huses : cipher.Uses opens) {uuid4 : Nat → Uuid} {now : Time}
    {claim : WebpageClaim} {content contentHash : String} {chunks : Option (List IngestChunk)}
    {embeddings : Option (List Embedding)} {o : Outcome Bool}
    (h : finish cipher.privateData uuid4 now db claim content contentHash chunks embeddings = o) :
    (o.db = db ∧ o.result ≠ .ok true) ∨
      o.result = .ok true ∧ ∃ v, Accepts db claim v ∧
        ((v.page.contentHash = some contentHash ∧
            Moves opens db claim.documentId (.confirmed claim.token contentHash) o.db) ∨
          v.page.contentHash ≠ some contentHash ∧ ∃ cs es,
            chunks = some cs ∧ embeddings = some es ∧
            Moves opens db claim.documentId
              (.published claim.token ⟨content, contentHash, cs, es⟩) o.db) := by
  rcases complete_cases h with hidle | ⟨hresult, ht⟩
  · exact .inl hidle
  · refine .inr ⟨hresult, ?_⟩
    rcases completeTransaction_ok ht with ⟨hfalse, _⟩ |
      ⟨_, hactive, v, hv, howner, hheld, document', page', mid, hpublish, hdb⟩
    · cases hfalse
    refine ⟨v, ⟨hactive, hv, howner, hheld⟩, ?_⟩
    rw [hdb]
    obtain ⟨hcontent, hhash, rfl, hsame | hnew⟩ := publish_ok hpublish
    · obtain ⟨hsame, rfl, rfl⟩ := hsame
      refine .inl ⟨hsame, ?_⟩
      have hmove : PageMove opens (some v) (.confirmed claim.token contentHash)
          (some (v.confirmed now)) := .confirmed hheld hsame
      have hchanged : decide (v.page.contentHash ≠ some contentHash) = false := by
        simp [hsame]
      rw [hchanged]
      exact Moves.of_update hv hv (fun _ _ => rfl) rfl rfl rfl hmove
    · obtain ⟨cs, es, rows, stored, hchanged, hcs, hes, hne, hrows, hstored, hinsert, rfl⟩ := hnew
      refine .inr ⟨hchanged, cs, es, hcs, hes, ?_⟩
      rw [← howner] at hrows hstored
      have hid := viewOf_document_id hv
      have hstand := chunkRows_stand huses hrows
      have hreplace := viewOf_replaceChunks hstand.documentId_of_mem hinsert
      have hmove : PageMove opens (some v) (.published claim.token ⟨content, contentHash, cs, es⟩)
          (some (v.published stored contentHash rows now)) :=
        .published hheld hchanged hcontent hne
          ⟨rfl, encryptText_stands huses hstored, hstand⟩
      have hdecide : decide (v.page.contentHash ≠ some contentHash) = true := by
        simpa using hchanged
      rw [hdecide]
      refine Moves.of_update hv ?_ ?_ ?_ rfl rfl hmove
      · obtain ⟨hd, hp, hc⟩ := hreplace claim.documentId
        obtain ⟨hdocument, hpage, _⟩ := viewOf_eq_some_iff.mp hv
        exact viewOf_eq_some_iff.mpr
          ⟨hd.trans hdocument, hp.trans hpage, hc.trans (if_pos hid.symm)⟩
      · intro other hother
        obtain ⟨hd, hp, hc⟩ := hreplace other
        rw [if_neg (hid ▸ hother)] at hc
        exact viewOf_congr hd hp hc
      · obtain ⟨t, ht, hfk, rfl⟩ := Database.insertChunks_ok hinsert
        rfl

/-- `fail` leaves the database alone, or records the failure on a row that it has accepted. -/
theorem fail_spec (huses : cipher.Uses opens) {now : Time} {claim : WebpageClaim}
    {error : String} {o : Outcome Bool} (h : fail cipher.privateData now db claim error = o) :
    (o.db = db ∧ o.result ≠ .ok true) ∨
      o.result = .ok true ∧ ∃ v, Accepts db claim v ∧
        Moves opens db claim.documentId (.failed claim.token) o.db := by
  rcases complete_cases h with hidle | ⟨hresult, ht⟩
  · exact .inl hidle
  · refine .inr ⟨hresult, ?_⟩
    rcases completeTransaction_ok ht with ⟨hfalse, _⟩ |
      ⟨_, hactive, v, hv, howner, hheld, document', page', syncError, hfailure, hsync, hdb⟩
    · cases hfalse
    refine ⟨v, ⟨hactive, hv, howner, hheld⟩, ?_⟩
    rw [hdb]
    rw [← howner] at hsync
    obtain ⟨rfl, hdocument⟩ := recordFailure_ok hfailure
    have hstands := encryptText_stands huses hsync
    rcases hdocument with ⟨hnone, stored, hstored, rfl⟩ | ⟨hsome, rfl⟩
    · rw [← howner] at hstored
      have hmove : PageMove opens (some v) (.failed claim.token)
          (some (v.failed stored syncError now)) :=
        .failed hheld (fun _ => encryptText_stands huses hstored) hstands
      rw [PageView.failed, if_pos hnone] at hmove
      exact Moves.of_update hv hv (fun _ _ => rfl) rfl rfl rfl hmove
    · have hmove : PageMove opens (some v) (.failed claim.token)
          (some (v.failed "" syncError now)) :=
        .failed hheld (fun hnone => absurd hnone hsome) hstands
      rw [PageView.failed, if_neg hsome] at hmove
      exact Moves.of_update hv hv (fun _ _ => rfl) rfl rfl rfl hmove

/-! ## Deletion -/

/-- The views that a deletion of documents leaves. -/
theorem viewOf_keepDocuments (p : Document → Bool) (id : Uuid) :
    viewOf (db.keepDocuments p) id = (viewOf db id).filter (fun v => p v.document) := by
  have hdocument := Database.document?_keepDocuments db p id
  have hpage := Database.webpage?_keepDocuments db p id
  have hchunks := Database.chunksOf_keepDocuments db p id
  cases hv : viewOf db id with
  | none =>
      rw [Option.filter_none, viewOf_eq_none_iff, hpage, viewOf_eq_none_iff.mp hv]
      split <;> rfl
  | some v =>
      obtain ⟨hd, hp, hc⟩ := viewOf_eq_some_iff.mp hv
      rw [hd] at hdocument hpage hchunks
      rw [Option.filter_some]
      cases hkeep : p v.document with
      | true =>
          simp only [Option.filter_some, Option.any_some, hkeep, if_true] at hdocument hpage hchunks
          exact viewOf_eq_some_iff.mpr ⟨hdocument, hpage.trans hp, hchunks.trans hc⟩
      | false =>
          simp only [Option.any_some, hkeep] at hpage
          exact viewOf_eq_none_iff.mpr hpage

/-- What a committed deletion leaves: every view but that of the owner's document. -/
theorem viewOf_deleteTransaction {documentId userId : Uuid} {deleted : Bool} {db' : Database}
    (h : deleteTransaction db documentId userId = .ok (deleted, db')) (id : Uuid) :
    viewOf db' id =
      (viewOf db id).filter (fun v => ¬ (v.document.id = documentId ∧ v.document.userId = userId)) := by
  obtain ⟨-, hdb, -⟩ := deleteTransaction_ok h
  rw [hdb]
  exact viewOf_keepDocuments _ id

/-- `delete_document` deletes the rows of a webpage document, or no row of one. -/
theorem deleteDocument_spec (opens : Opens) {documentId userId : Uuid} {o : Outcome Bool}
    (h : deleteDocument db documentId userId = o) :
    ((∀ id, viewOf o.db id = viewOf db id) ∧ o.db.erasedOwners = db.erasedOwners) ∨
      Moves opens db documentId .deleted o.db := by
  subst h
  rcases Outcome.ofTransaction_cases db (deleteTransaction db documentId userId)
    with ⟨e, _, ho⟩ | ⟨deleted, db', ht, ho⟩
  · rw [deleteDocument, ho]
    exact .inl ⟨fun _ => rfl, rfl⟩
  · rw [deleteDocument, ho]
    obtain ⟨-, hdb, -⟩ := deleteTransaction_ok ht
    have hviews := viewOf_deleteTransaction ht
    have herased : db'.erasedOwners = db.erasedOwners := by rw [hdb]; rfl
    have hothers : ∀ other, other ≠ documentId → viewOf db' other = viewOf db other := by
      intro other hother
      rw [hviews]
      cases hv : viewOf db other with
      | none => rfl
      | some v => simp [viewOf_document_id hv, hother]
    cases hv : viewOf db documentId with
    | none =>
        refine .inl ⟨?_, herased⟩
        intro id
        by_cases hid : id = documentId
        · rw [hid, hviews, hv, Option.filter_none]
        · exact hothers id hid
    | some v =>
        by_cases howner : v.document.userId = userId
        · refine .inr ⟨?_, hothers, herased⟩
          rw [hviews, hv]
          simp only [viewOf_document_id hv, howner, Option.filter_some]
          exact .deleted
        · refine .inl ⟨?_, herased⟩
          intro id
          by_cases hid : id = documentId
          · rw [hid, hviews, hv]
            simp [howner]
          · exact hothers id hid

end Methods

end PortRag.Webpages
