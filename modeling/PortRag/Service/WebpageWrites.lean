import PortRag.Service.WritePaths

set_option autoImplicit false

/-!
# The writing methods of the webpage repository

The same for the repository of webpages: registration, requests, claims and completions.
-/

namespace PortRag.Service

open PortRag.Foundation PortRag.Db PortRag.Security PortRag.Http PortRag.Ingest PortRag.Webpages

variable {opens : Opens} {cipher : PrivateDataCipher} {db : Database}

/-! ## Registration -/

/-- A URL list as registration stores it, in the clear. -/
theorem revealUrls_of_stand {owner resource : String} {stored urls : List String}
    (h : UrlsStand opens owner resource stored urls) :
    revealUrls opens owner resource stored = urls ∧
      ∀ u ∈ stored.zipIdx, TextSealed opens u.1 ⟨owner, resource, urlField u.2⟩ := by
  have hlist : List.Forall₂ (fun (u : String × Nat) url =>
      TextSealed opens u.1 ⟨owner, resource, urlField u.2⟩ ∧
        url = revealText opens u.1 ⟨owner, resource, urlField u.2⟩) stored.zipIdx urls :=
    h.imp (fun _ _ hu => ⟨hu.reveal, (revealText_of_stands hu).symm⟩)
  obtain ⟨hsealed, hurls⟩ := eq_map_of_forall₂ hlist
  exact ⟨hurls.symm, hsealed⟩

theorem encryptUrls_follows (huses : cipher.Uses opens) (owner resource : String)
    (urls : List String) :
    Follows cipher.WriteFails
      (fun stored plain => plain = urls ∧ UrlsStand opens owner resource stored urls)
      (urls.zipIdx.mapM (fun u => cipher.privateData.encryptText u.1
        ⟨owner, resource, urlField u.2⟩))
      (urls.zipIdx.mapM (fun u => PrivateData.plain.encryptText u.1
        ⟨owner, resource, urlField u.2⟩)) := by
  have hplain : urls.zipIdx.mapM (fun u => PrivateData.plain.encryptText u.1
      ⟨owner, resource, urlField u.2⟩) = .ok urls := by
    have hmap := mapM_ok_map (ε := Exc) (fun u : String × Nat => u.1) urls.zipIdx
    rwa [List.zipIdx_map_fst] at hmap
  constructor
  · intro stored hstored
    exact ⟨urls, hplain, rfl, encryptUrls_stand huses hstored⟩
  · intro e he
    obtain ⟨u, -, hu⟩ := exists_of_mapM_eq_error he
    exact .inl ⟨_, _, hu⟩

/-- A registered webpage row in the clear. -/
theorem newWebpage_reveal {owner : String} {documentId : Uuid} {urls storedUrls : List String}
    {storedContent : String} (autoSync : Bool)
    (hurls : UrlsStand opens owner documentId.str storedUrls urls)
    (hcontent : TextStands opens storedContent ⟨owner, documentId.str, "webpage:content"⟩ "") :
    (newWebpage documentId storedUrls storedContent autoSync).reveal opens owner =
        newWebpage documentId urls "" autoSync ∧
      (newWebpage documentId storedUrls storedContent autoSync).Sealed opens owner := by
  obtain ⟨hreveal, hsealed⟩ := revealUrls_of_stand hurls
  constructor
  · simp [newWebpage, DocumentWebpage.reveal, hreveal, revealText_of_stands hcontent]
  · exact ⟨hsealed, hcontent.reveal, fun e he => by cases he⟩

/-- A registration imitates itself on the plaintext.  Name, URLs and content are encrypted before
the first insert, so where the cipher raises nothing has been inserted. -/
theorem createWebpage_imitates (huses : cipher.Uses opens) (h : db.Sealed opens)
    (lib : UrlFunctions) (documentId : Uuid) (now : Time) (userId : Uuid)
    (knowledgeKey : String) (name : Option String) (urls : List String) (autoSync : Bool) :
    Imitates opens cipher db
      (Webpages.create cipher.privateData lib documentId now db userId knowledgeKey name urls
        autoSync)
      (Webpages.create .plain lib documentId now (db.plaintext opens) userId knowledgeKey name
        urls autoSync) := by
  refine .ofTransaction h ?_
  unfold createTransaction
  split
  swap
  · exact .error _
  refine .bind (.refl (fun _ => rfl) _) ?_
  rintro normalized _ rfl
  dsimp only
  refine .bind (.refl (fun _ => rfl) _) ?_
  rintro _ _ -
  refine .bind (follows_of_write (encryptText_follows huses _)) ?_
  rintro stored _ ⟨rfl, hname⟩
  obtain ⟨hreveal, hsealed⟩ := processingDocument_reveal knowledgeKey "text/html" now hname
  rw [← hreveal]
  refine .bind (Follows.mapError (insertDocument_follows h hsealed) (fun _ he => he)).and_ok ?_
  rintro db' _ ⟨⟨hsealed', rfl⟩, hdb'⟩
  have hfind := Database.document?_of_insertDocument (mapError_eq_ok.mp hdb')
  have howner := Database.documentOwner_of hfind
  refine .bind (follows_of_write (encryptUrls_follows huses _ _ _)) ?_
  rintro storedUrls _ ⟨rfl, hurls⟩
  refine .bind (follows_of_write (encryptText_follows huses _)) ?_
  rintro content _ ⟨rfl, hcontent⟩
  obtain ⟨hpage, hpageSealed⟩ := newWebpage_reveal autoSync hurls hcontent
  have howner' : db'.documentOwner
      (newWebpage documentId storedUrls content autoSync).documentId = userId.str := howner
  have hinsert := insertWebpage_follows (F := cipher.Fails opens) hsealed'
    (howner'.symm ▸ hpageSealed)
  rw [howner', hpage] at hinsert
  refine .bind hinsert ?_
  rintro db'' p'' hmirrors
  have hpages : ∀ p ∈ some (newWebpage documentId storedUrls content autoSync),
      p.Sealed opens userId.str := by
    rintro _ ⟨⟩
    exact hpageSealed
  have hids : ∀ p ∈ some (newWebpage documentId storedUrls content autoSync),
      p.documentId = documentId := by
    rintro _ ⟨⟩
    rfl
  rw [← hpage]
  refine .bind (follows_of_read (toPrivateRecord_follows huses hsealed hpages hids)) ?_
  rintro record _ rfl
  exact .pure ⟨rfl, hmirrors⟩

/-! ## Requests and claims -/

/-- The rows of a webpage document, sealed and joined. -/
structure SealedRows (opens : Opens) (rows : Document × DocumentWebpage) : Prop where
  document : rows.1.Sealed opens
  page : rows.2.Sealed opens rows.1.userId.str
  joined : rows.2.documentId = rows.1.id

/-- Both rows in the clear. -/
def revealRows (opens : Opens) (rows : Document × DocumentWebpage) : Document × DocumentWebpage :=
  (rows.1.reveal opens, rows.2.reveal opens rows.1.userId.str)

theorem sealedRows_of_select (h : db.Sealed opens) {documentId userId : Uuid}
    {rows : Document × DocumentWebpage} (hs : select db documentId userId = some rows) :
    SealedRows opens rows ∧ db.document? rows.1.id = some rows.1 ∧ rows.1.id = documentId ∧
      rows.1.userId = userId := by
  obtain ⟨hd, hp, rfl, hdsealed, hpsealed⟩ := sealed_select h hs
  obtain rfl : rows.1.id = documentId := Database.document?_id hd
  exact ⟨⟨hdsealed, hpsealed, Database.webpage?_id hp⟩, hd, rfl, rfl⟩

/-- What a change of both rows keeps of them. -/
structure KeepsPrivate (rows rows' : Document × DocumentWebpage) : Prop where
  id : rows'.1.id = rows.1.id
  userId : rows'.1.userId = rows.1.userId
  documentId : rows'.2.documentId = rows.2.documentId
  name : rows'.1.name = rows.1.name
  error : rows'.1.error = rows.1.error ∨ rows'.1.error = none
  urls : rows'.2.urls = rows.2.urls
  content : rows'.2.content = rows.2.content
  syncError : rows'.2.syncError = rows.2.syncError ∨ rows'.2.syncError = none

/-- A change that writes nothing private keeps the rows sealed. -/
theorem KeepsPrivate.sealed {rows rows' : Document × DocumentWebpage}
    (h : KeepsPrivate rows rows') (hrows : SealedRows opens rows) : SealedRows opens rows' := by
  obtain ⟨d, p⟩ := rows
  obtain ⟨d', p'⟩ := rows'
  obtain ⟨hid, huser, hdoc, hname, herror, hurls, hcontent, hsync⟩ := h
  dsimp only at hid huser hdoc hname herror hurls hcontent hsync
  have hd := hrows.document
  have hp := hrows.page
  refine ⟨⟨?_, ?_⟩, ⟨?_, ?_, ?_⟩, ?_⟩
  · simpa [hname, Document.binding, huser, hid] using hd.name
  · rcases herror with herror | herror
    · simpa [herror, Document.binding, huser, hid] using hd.error
    · simp [herror]
  · simpa [hurls, huser, hdoc] using hp.urls
  · simpa [hcontent, huser, hdoc] using hp.content
  · rcases hsync with hsync | hsync
    · simpa [hsync, huser, hdoc] using hp.syncError
    · simp [hsync]
  · exact hdoc.trans (hrows.joined.trans hid.symm)

/-- The update of both rows of a webpage document that is there. -/
theorem Mirrors.updateSealedRows {p : Database} (h : Mirrors opens db p)
    {rows rows' : Document × DocumentWebpage} (hd : db.document? rows.1.id = some rows.1)
    (hrows' : SealedRows opens rows') (hid : rows'.1.id = rows.1.id)
    (howner : rows'.1.userId = rows.1.userId) :
    Mirrors opens ((db.updateDocument rows'.1).updateWebpage rows'.2)
      ((p.updateDocument (revealRows opens rows').1).updateWebpage (revealRows opens rows').2) :=
  h.updateRows (hid.symm ▸ hd) howner hrows'.document hrows'.joined hrows'.page

theorem enqueued_keeps (now : Time) (d : Document) (p : DocumentWebpage) :
    KeepsPrivate (d, p) (enqueued now d p) := by
  unfold enqueued
  split
  · exact ⟨rfl, rfl, rfl, rfl, .inr rfl, rfl, rfl, .inr rfl⟩
  · exact ⟨rfl, rfl, rfl, rfl, .inl rfl, rfl, rfl, .inr rfl⟩

theorem enqueued_reveal (now : Time) (d : Document) (p : DocumentWebpage) :
    enqueued now (d.reveal opens) (p.reveal opens d.userId.str) =
      revealRows opens (enqueued now d p) := by
  unfold enqueued
  have hhash : (p.reveal opens d.userId.str).contentHash = p.contentHash := rfl
  rw [hhash]
  split <;> rfl

theorem autoSyncSet_keeps (now : Time) (d : Document) (p : DocumentWebpage) (autoSync : Bool) :
    KeepsPrivate (d, p) (autoSyncSet now d p autoSync) := by
  unfold autoSyncSet
  dsimp only
  split
  · exact ⟨rfl, rfl, rfl, rfl, .inl rfl, rfl, rfl, .inl rfl⟩
  · split <;> exact ⟨rfl, rfl, rfl, rfl, .inl rfl, rfl, rfl, .inl rfl⟩

theorem autoSyncSet_reveal (now : Time) (d : Document) (p : DocumentWebpage) (autoSync : Bool) :
    autoSyncSet now (d.reveal opens) (p.reveal opens d.userId.str) autoSync =
      revealRows opens (autoSyncSet now d p autoSync) := by
  have hswitch : (p.reveal opens d.userId.str).autoSync = p.autoSync := rfl
  have hcancels : cancels (p.reveal opens d.userId.str) autoSync = cancels p autoSync := rfl
  unfold autoSyncSet
  dsimp only
  rw [hswitch, hcancels]
  split
  · rfl
  · split <;> rfl

theorem claimed_keeps (token : Uuid) (now : Time) (d : Document) (p : DocumentWebpage) :
    KeepsPrivate (d, p) (claimed token now d p) :=
  ⟨rfl, rfl, rfl, rfl, .inl rfl, rfl, rfl, .inr rfl⟩

/-- The detail after a commit. -/
theorem committedDetail_follows (huses : cipher.Uses opens)
    {rows : Option (Document × DocumentWebpage)} (h : ∀ r ∈ rows, SealedRows opens r) :
    Follows (cipher.Fails opens) Eq (committedDetail cipher.privateData rows)
      (committedDetail .plain (rows.map (revealRows opens))) := by
  cases rows with
  | none => exact .ok rfl
  | some r =>
      obtain ⟨hd, hp, hid⟩ := h r rfl
      refine (follows_of_read (detail_follows huses hd hp hid)).map ?_
      rintro _ _ rfl
      rfl

/-- The rows that a commit hands to the detail, in the clear. -/
def RowsMirror (opens : Opens) (rows rows' : Option (Document × DocumentWebpage)) : Prop :=
  rows' = rows.map (revealRows opens) ∧ ∀ r ∈ rows, SealedRows opens r

theorem enqueue_imitates (huses : cipher.Uses opens) (h : db.Sealed opens) (now : Time)
    (documentId userId : Uuid) :
    Imitates opens cipher db (Webpages.enqueue cipher.privateData now db documentId userId)
      (Webpages.enqueue .plain now (db.plaintext opens) documentId userId) := by
  refine .afterCommit (R := RowsMirror opens) h ?_ ?_ (fun rows => ⟨_, committedDetail_plain rows⟩)
  · refine .bind (.refl (fun _ => rfl) _) ?_
    rintro _ _ -
    rw [select_plaintext]
    cases hs : select db documentId userId with
    | none => exact .pure ⟨⟨rfl, fun _ hr => by cases hr⟩, h, rfl⟩
    | some rows =>
        obtain ⟨hrows, hd, rfl, rfl⟩ := sealedRows_of_select h hs
        have hstatus : (rows.2.reveal opens rows.1.userId.str).syncStatus = rows.2.syncStatus := rfl
        have hkeeps := enqueued_keeps now rows.1 rows.2
        have hsealed := hkeeps.sealed hrows
        have hmirrors : Mirrors opens db (db.plaintext opens) := ⟨h, rfl⟩
        dsimp only [Option.map_some]
        rw [hstatus, enqueued_reveal]
        split
        · exact .error _
        · refine .pure ⟨⟨rfl, ?_⟩, hmirrors.updateSealedRows hd hsealed hkeeps.id hkeeps.userId⟩
          rintro _ ⟨⟩
          exact hsealed
  · rintro rows _ ⟨rfl, hrows⟩
    exact committedDetail_follows huses hrows

theorem setAutoSync_imitates (huses : cipher.Uses opens) (h : db.Sealed opens) (now : Time)
    (documentId userId : Uuid) (autoSync : Bool) :
    Imitates opens cipher db
      (Webpages.setAutoSync cipher.privateData now db documentId userId autoSync)
      (Webpages.setAutoSync .plain now (db.plaintext opens) documentId userId autoSync) := by
  refine .afterCommit (R := RowsMirror opens) h ?_ ?_ (fun rows => ⟨_, committedDetail_plain rows⟩)
  · refine .bind (.refl (fun _ => rfl) _) ?_
    rintro _ _ -
    rw [select_plaintext]
    cases hs : select db documentId userId with
    | none => exact .pure ⟨⟨rfl, fun _ hr => by cases hr⟩, h, rfl⟩
    | some rows =>
        obtain ⟨hrows, hd, rfl, rfl⟩ := sealedRows_of_select h hs
        have hkeeps := autoSyncSet_keeps now rows.1 rows.2 autoSync
        have hsealed := hkeeps.sealed hrows
        have hmirrors : Mirrors opens db (db.plaintext opens) := ⟨h, rfl⟩
        dsimp only [Option.map_some]
        rw [autoSyncSet_reveal]
        refine .pure ⟨⟨rfl, ?_⟩, hmirrors.updateSealedRows hd hsealed hkeeps.id hkeeps.userId⟩
        rintro _ ⟨⟩
        exact hsealed
  · rintro rows _ ⟨rfl, hrows⟩
    exact committedDetail_follows huses hrows

/-- A claim decrypts the URLs of its row and encrypts nothing; both stores find the row due or
neither does, because no column that `due` looks at is encrypted. -/
theorem claimTransaction_follows (huses : cipher.Uses opens) (h : db.Sealed opens)
    (token : Uuid) (now : Time) (documentId owner : Uuid) :
    Follows (cipher.ReadFails opens) (fun x y => x.1 = y.1 ∧ Mirrors opens x.2 y.2)
      (claimTransaction cipher.privateData token now db documentId owner)
      (claimTransaction .plain token now (db.plaintext opens) documentId owner) := by
  refine .bind (.refl (fun _ => rfl) _) ?_
  rintro _ _ -
  have hfilter : (select (db.plaintext opens) documentId owner).filter
      (fun rows => due now rows.2) =
      ((select db documentId owner).filter (fun rows => due now rows.2)).map
        (fun rows => (rows.1.reveal opens, rows.2.reveal opens owner.str)) := by
    rw [select_plaintext, Option.filter_map]
    rfl
  rw [hfilter]
  cases hs : (select db documentId owner).filter (fun rows => due now rows.2) with
  | none => exact .pure ⟨rfl, h, rfl⟩
  | some rows =>
      obtain ⟨hrows, hd, rfl, rfl⟩ :=
        sealedRows_of_select h (Option.filter_eq_some_iff.mp hs).1
      have hkeeps := claimed_keeps token now rows.1 rows.2
      have hmirrors : Mirrors opens db (db.plaintext opens) := ⟨h, rfl⟩
      have hurls : Follows (cipher.ReadFails opens) Eq
          (readUrls cipher.privateData rows.1.userId.str rows.2.documentId.str rows.2.urls)
          (readUrls .plain rows.1.userId.str rows.2.documentId.str
            (rows.2.reveal opens rows.1.userId.str).urls) :=
        readUrls_follows huses hrows.page.urls
      rw [hrows.joined] at hurls
      refine .bind hurls ?_
      rintro urls _ rfl
      exact .pure ⟨rfl, hmirrors.updateSealedRows hd (hkeeps.sealed hrows) hkeeps.id
        hkeeps.userId⟩

theorem claimCandidate_imitates (huses : cipher.Uses opens) (h : db.Sealed opens)
    (token : Uuid) (now : Time) (documentId owner : Uuid) :
    Imitates opens cipher db (claimCandidate cipher.privateData token now db documentId owner)
      (claimCandidate .plain token now (db.plaintext opens) documentId owner) :=
  .ofTransaction h (follows_of_read (claimTransaction_follows huses h token now documentId owner))

/-! ## Completions -/

/-- What a publication hands on: rows that stay sealed and joined, in their database. -/
structure PublishMirror (opens : Opens) (db : Database) (d : Document)
    (x y : Document × DocumentWebpage × Database) : Prop where
  rows : SealedRows opens (x.1, x.2.1)
  reveal : (y.1, y.2.1) = revealRows opens (x.1, x.2.1)
  mirrors : Mirrors opens x.2.2 y.2.2
  id : x.1.id = d.id
  userId : x.1.userId = d.userId
  documents : ∀ id, x.2.2.document? id = db.document? id

/-- The part of a completion that publishes follows itself in the clear: content and chunks are
encrypted under the bindings of the cells they go to, and the hash is stored as it is given. -/
theorem publish_follows (huses : cipher.Uses opens) (h : db.Sealed opens) (uuid4 : Nat → Uuid)
    (claim : WebpageClaim) {d : Document} {p : DocumentWebpage} (hrows : SealedRows opens (d, p))
    (hd : db.document? d.id = some d) (howner : claim.userId = d.userId)
    (given givenHash : Option String) {chunks : Option (List IngestChunk)}
    (hdict : ∀ c ∈ chunks.getD [], c.metadata.IsDict) (embeddings : Option (List Embedding)) :
    Follows (cipher.Fails opens) (PublishMirror opens db d)
      (publish cipher.privateData uuid4 db claim d p given givenHash chunks embeddings)
      (publish .plain uuid4 (db.plaintext opens) claim (d.reveal opens)
        (p.reveal opens d.userId.str) given givenHash chunks embeddings) := by
  have hhash : (p.reveal opens d.userId.str).contentHash = p.contentHash := rfl
  have hid : (d.reveal opens).id = d.id := rfl
  unfold publish
  rw [hhash, howner, hid]
  split
  · next text contentHash _ _ =>
      split
      · split
        · next chunks' embeddings' hchunks =>
            split
            · exact .error _
            · have hdict' : ∀ c ∈ chunks', c.metadata.IsDict := by
                rw [(Option.filter_eq_some_iff.mp hchunks).1] at hdict
                exact hdict
              refine .bind (follows_of_write (chunkRows_follows huses hdict' uuid4 _)) ?_
              rintro rows _ ⟨rfl, hchunkRows⟩
              refine .bind (follows_of_write (encryptText_follows huses _)) ?_
              rintro stored content ⟨rfl, hstored⟩
              refine .bind (replaceRows_follows h hd hchunkRows).and_ok ?_
              rintro db' p' ⟨hmirrors, hdb'⟩
              split
              · exact .error _
              · have hstored' : TextStands opens stored
                    ⟨d.userId.str, p.documentId.str, "webpage:content"⟩ content := by
                  rwa [show p.documentId = d.id from hrows.joined]
                have hpage : DocumentWebpage.Sealed opens d.userId.str
                    { p with content := stored, contentHash := some contentHash, syncStatus := .idle } :=
                  ⟨hrows.page.urls, hstored'.reveal, hrows.page.syncError⟩
                have hdocument : Document.Sealed opens
                    { d with status := .ready, error := none } :=
                  ⟨hrows.document.name, fun e he => by cases he⟩
                refine .pure ⟨⟨hdocument, hpage, hrows.joined⟩, ?_, hmirrors, rfl, rfl,
                  document?_of_replaced hdb'⟩
                rw [← revealText_of_stands hstored']
                rfl
        · exact .error _
      · have hkeeps : KeepsPrivate (d, p)
            ({ d with status := .ready, error := none }, { p with syncStatus := .idle }) :=
          ⟨rfl, rfl, rfl, rfl, .inr rfl, rfl, rfl, .inl rfl⟩
        exact .ok ⟨hkeeps.sealed hrows, rfl, ⟨h, rfl⟩, rfl, rfl, fun _ => rfl⟩
  · exact .error _

/-- What a failure hands on. -/
structure FailureMirror (opens : Opens) (d : Document) (x y : Document × DocumentWebpage) :
    Prop where
  rows : SealedRows opens x
  reveal : y = revealRows opens x
  id : x.1.id = d.id
  userId : x.1.userId = d.userId

theorem recordFailure_follows (huses : cipher.Uses opens) (claim : WebpageClaim) {d : Document}
    {p : DocumentWebpage} (hrows : SealedRows opens (d, p)) (howner : claim.userId = d.userId)
    (error : String) :
    Follows cipher.WriteFails (FailureMirror opens d)
      (recordFailure cipher.privateData claim d p error)
      (recordFailure .plain claim (d.reveal opens) (p.reveal opens d.userId.str) error) := by
  have hhash : (p.reveal opens d.userId.str).contentHash = p.contentHash := rfl
  unfold recordFailure
  rw [hhash, howner]
  split
  · refine .bind (encryptText_follows huses error) ?_
    rintro stored error ⟨rfl, hstored⟩
    have hdocument : Document.Sealed opens { d with status := .failed, error := some stored } := by
      refine ⟨hrows.document.name, ?_⟩
      rintro _ ⟨⟩
      exact hstored.reveal
    have hpage : DocumentWebpage.Sealed opens d.userId.str { p with syncStatus := .failed } :=
      ⟨hrows.page.urls, hrows.page.content, hrows.page.syncError⟩
    refine .pure ⟨⟨hdocument, hpage, hrows.joined⟩, ?_, rfl, rfl⟩
    rw [← revealText_of_stands hstored]
    rfl
  · have hkeeps : KeepsPrivate (d, p) (d, { p with syncStatus := .failed }) :=
      ⟨rfl, rfl, rfl, rfl, .inl rfl, rfl, rfl, .inl rfl⟩
    exact .ok ⟨hkeeps.sealed hrows, rfl, rfl, rfl⟩

/-- The rows that a completion writes last, where the sync error stands for a text. -/
theorem closed_sealed {d : Document} {p : DocumentWebpage} (hrows : SealedRows opens (d, p))
    (now : Time) (success : Option Bool) (stored plain : Option String)
    (hnone : stored = none → plain = none)
    (hstored : ∀ s ∈ stored, ∃ e, plain = some e ∧
      TextStands opens s ⟨d.userId.str, p.documentId.str, "webpage:error"⟩ e) :
    SealedRows opens ({ d with updatedAt := now }, closed now success stored p) ∧
      revealRows opens ({ d with updatedAt := now }, closed now success stored p) =
        ({ d.reveal opens with updatedAt := now },
          closed now success plain (p.reveal opens d.userId.str)) := by
  cases stored with
  | none =>
      have hsync : ∀ e ∈ (closed now success none p).syncError,
          TextSealed opens e ⟨d.userId.str, p.documentId.str, "webpage:error"⟩ := by
        intro e he
        cases he
      rw [hnone rfl]
      exact ⟨⟨⟨hrows.document.name, hrows.document.error⟩,
        ⟨hrows.page.urls, hrows.page.content, hsync⟩, hrows.joined⟩, rfl⟩
  | some s =>
      obtain ⟨e, rfl, hs⟩ := hstored s rfl
      have hsync : ∀ e ∈ (closed now success (some s) p).syncError,
          TextSealed opens e ⟨d.userId.str, p.documentId.str, "webpage:error"⟩ := by
        rintro _ ⟨⟩
        exact hs.reveal
      refine ⟨⟨⟨hrows.document.name, hrows.document.error⟩,
        ⟨hrows.page.urls, hrows.page.content, hsync⟩, hrows.joined⟩, ?_⟩
      rw [← revealText_of_stands hs]
      rfl

/-- A completion follows itself in the clear, whether the content is unchanged, replaced or a
failure: the stored hash is the same column in both stores, so the content has changed in both or in
neither. -/
theorem completeTransaction_follows (huses : cipher.Uses opens) (h : db.Sealed opens)
    (uuid4 : Nat → Uuid) (now : Time) (claim : WebpageClaim)
    (content contentHash : Option String) {chunks : Option (List IngestChunk)}
    (hdict : ∀ c ∈ chunks.getD [], c.metadata.IsDict) (embeddings : Option (List Embedding))
    (error : Option String) :
    Follows (cipher.Fails opens) (fun x y => x.1 = y.1 ∧ Mirrors opens x.2 y.2)
      (completeTransaction cipher.privateData uuid4 now db claim content contentHash chunks
        embeddings error)
      (completeTransaction .plain uuid4 now (db.plaintext opens) claim content contentHash chunks
        embeddings error) := by
  refine .bind (.refl (fun _ => rfl) _) ?_
  rintro _ _ -
  rw [select_plaintext]
  cases hs : select db claim.documentId claim.userId with
  | none => exact .pure ⟨rfl, h, rfl⟩
  | some rows =>
      obtain ⟨hrows, hd, hid, howner⟩ := sealedRows_of_select h hs
      have hholds : holds claim (rows.2.reveal opens claim.userId.str) = holds claim rows.2 := rfl
      have hhash : (rows.2.reveal opens claim.userId.str).contentHash = rows.2.contentHash := rfl
      have hmirrors : Mirrors opens db (db.plaintext opens) := ⟨h, rfl⟩
      dsimp only [Option.map_some]
      rw [hholds, hhash, ← howner]
      split
      · cases error with
        | none =>
            refine .bind (publish_follows huses h uuid4 claim hrows hd howner.symm content
              contentHash hdict embeddings) ?_
            rintro ⟨d', p', db'⟩ ⟨d'', p'', db''⟩ ⟨hrows', hreveal, hmirrors', hid', huser', hdocs⟩
            cases hreveal
            obtain ⟨hsealed, hclosed⟩ := closed_sealed hrows' now
              (some (decide (rows.2.contentHash ≠ contentHash))) none none (fun _ => rfl)
              (fun _ he => by cases he)
            have hd' : db'.document? rows.1.id = some rows.1 := (hdocs _).trans hd
            have hupdated := hmirrors'.updateSealedRows hd' hsealed hid' huser'
            rw [hclosed] at hupdated
            exact .pure ⟨rfl, hupdated⟩
        | some error =>
            refine .bind (follows_of_write
              (recordFailure_follows huses claim hrows howner.symm error)) ?_
            rintro ⟨d', p'⟩ ⟨d'', p''⟩ ⟨hrows', hreveal, hid', huser'⟩
            cases hreveal
            have hjoined : p'.documentId = rows.1.id := hrows'.joined.trans hid'
            refine .bind (follows_of_write (encryptText_follows huses error)) ?_
            rintro stored error ⟨rfl, hstored⟩
            have hstands : ∀ s ∈ some stored, ∃ e, some error = some e ∧
                TextStands opens s ⟨d'.userId.str, p'.documentId.str, "webpage:error"⟩ e := by
              rintro _ ⟨⟩
              rw [hjoined, huser']
              exact ⟨error, rfl, hstored⟩
            obtain ⟨hsealed, hclosed⟩ := closed_sealed hrows' now none (some stored) (some error)
              (fun hnone => by cases hnone) hstands
            have hupdated := hmirrors.updateSealedRows hd hsealed hid' huser'
            rw [hclosed] at hupdated
            exact .pure ⟨rfl, hupdated⟩
      · exact .pure ⟨rfl, h, rfl⟩

/-- The encryption service never raises the error of a fenced owner. -/
theorem not_erased_of_fails (huses : cipher.Uses opens)
    (hnever : ∀ value binding, cipher.encrypt value binding ≠ .error .ownerDataErased) {e : Exc}
    (h : cipher.Fails opens e) : e ≠ .ownerDataErased := by
  rintro rfl
  rcases h with ⟨value, binding, ciphertext, hopens, herror⟩ | ⟨value, binding, herror⟩
  · cases huses.decrypt_error hopens herror
  · exact hnever value binding herror

/-- A completion imitates itself on the plaintext; a fenced owner reads as a stale claim on both
stores. -/
theorem complete_imitates (huses : cipher.Uses opens)
    (hnever : ∀ value binding, cipher.encrypt value binding ≠ .error .ownerDataErased)
    (h : db.Sealed opens) (uuid4 : Nat → Uuid) (now : Time) (claim : WebpageClaim)
    (content contentHash : Option String) {chunks : Option (List IngestChunk)}
    (hdict : ∀ c ∈ chunks.getD [], c.metadata.IsDict) (embeddings : Option (List Embedding))
    (error : Option String) :
    Imitates opens cipher db
      (complete cipher.privateData uuid4 now db claim content contentHash chunks embeddings error)
      (complete .plain uuid4 now (db.plaintext opens) claim content contentHash chunks embeddings
        error) := by
  have htransaction := completeTransaction_follows huses h uuid4 now claim content contentHash
    hdict embeddings error
  unfold complete
  generalize completeTransaction cipher.privateData uuid4 now db claim content contentHash chunks
    embeddings error = t at htransaction
  generalize completeTransaction .plain uuid4 now (db.plaintext opens) claim content contentHash
    chunks embeddings error = t' at htransaction
  refine .ofTransaction h ?_
  cases t with
  | error e =>
      rcases htransaction.2 e rfl with he | rfl
      · have hne := not_erased_of_fails huses hnever he
        split
        · next heq => exact absurd (Except.error.inj heq) hne
        · exact .failed he _
      · split
        · exact .ok ⟨rfl, h, rfl⟩
        · exact .error e
  | ok x =>
      obtain ⟨y, rfl, hxy⟩ := htransaction.1 x rfl
      exact .ok hxy

end PortRag.Service
