import PortRag.Webpages.Runs

set_option autoImplicit false

/-!
# Webpage methods that raise

`create`, `claim`, `finish` and `fail` make every call of the encryption service before their
commit: when they raise, the rows are as they were.  `enqueue` and `set_auto_sync` read the
row for their answer after the commit, so they raise with the change committed when a
field of the row cannot be read.
-/

namespace PortRag.Webpages

open PortRag.Foundation PortRag.Db PortRag.Security PortRag.Http PortRag.Ingest

/-- The document rows, webpage rows and chunk rows are the same. -/
structure RowsUnchanged (db db' : Database) : Prop where
  documents : db'.documents = db.documents
  webpages : db'.webpages = db.webpages
  chunks : db'.chunks = db.chunks

theorem RowsUnchanged.of_eq {db db' : Database} (h : db' = db) : RowsUnchanged db db' :=
  ⟨by rw [h], by rw [h], by rw [h]⟩

/-- When the method raises, the rows are as they were. -/
def AllOrNothing (m : WebpageMethod) (db : Database) : Prop :=
  ∀ e, (m.exec db).1.raised = some e → RowsUnchanged db (m.exec db).2

/-! ## What the answer reads -/

/-- The stored text can be read under this field of the document. -/
def Readable (pd : PrivateData) (document : Document) (stored field : String) : Prop :=
  ∃ plain, pd.readText stored ⟨document.userId.str, document.id.str, field⟩ = .ok plain

/-- The fields that every answer shows can be read. -/
structure Legible (pd : PrivateData) (document : Document) (page : DocumentWebpage) : Prop where
  name : Readable pd document document.name "document:name"
  urls : ∀ u ∈ page.urls.zipIdx, Readable pd document u.1 (urlField u.2)
  content : Readable pd document page.content "webpage:content"

section Detail

variable {pd : PrivateData} {document : Document} {page : DocumentWebpage}

theorem readOptional_ok {value : Option String} {field : String} :
    (∃ plain, pd.readOptional value ⟨document.userId.str, document.id.str, field⟩ = .ok plain) ↔
      ∀ stored, value = some stored → Readable pd document stored field := by
  cases value with
  | none => exact ⟨fun _ _ h => (by cases h), fun _ => ⟨none, rfl⟩⟩
  | some stored =>
      constructor
      · rintro ⟨plain, h⟩ stored' hstored
        cases hstored
        obtain ⟨text, htext, -⟩ := map_eq_ok.mp h
        exact ⟨text, htext⟩
      · intro h
        obtain ⟨plain, hplain⟩ := h stored rfl
        exact ⟨some plain, map_eq_ok.mpr ⟨plain, hplain, rfl⟩⟩

theorem readUrls_ok :
    (∃ urls, readUrls pd document.userId.str document.id.str page.urls = .ok urls) ↔
      ∀ u ∈ page.urls.zipIdx, Readable pd document u.1 (urlField u.2) := by
  constructor
  · rintro ⟨urls, h⟩ u hu
    have hread := mapM_eq_ok.mp h
    obtain ⟨i, hi, rfl⟩ := List.mem_iff_getElem.mp hu
    exact ⟨_, hread.get hi (hread.length_eq ▸ hi)⟩
  · exact exists_mapM_ok

/-- The answer can be read exactly when each of its fields can. -/
theorem detail_ok : (∃ v, detail pd document page = .ok v) ↔
    Legible pd document page ∧
      (∀ stored, document.error = some stored → Readable pd document stored "document:error") ∧
      ∀ stored, page.syncError = some stored → Readable pd document stored "webpage:error" := by
  constructor
  · rintro ⟨v, h⟩
    obtain ⟨record, hrecord, h⟩ := bind_eq_ok.mp h
    obtain ⟨content, hcontent, -⟩ := bind_eq_ok.mp h
    obtain ⟨webpage, hwebpage, h⟩ := bind_eq_ok.mp hrecord
    obtain ⟨name, hname, h⟩ := bind_eq_ok.mp h
    obtain ⟨error, herror, -⟩ := bind_eq_ok.mp h
    obtain ⟨urls, hurls, h⟩ := bind_eq_ok.mp hwebpage
    obtain ⟨syncError, hsync, -⟩ := bind_eq_ok.mp h
    exact ⟨⟨⟨name, hname⟩, readUrls_ok.mp ⟨urls, hurls⟩, ⟨content, hcontent⟩⟩,
      readOptional_ok.mp ⟨error, herror⟩, readOptional_ok.mp ⟨syncError, hsync⟩⟩
  · rintro ⟨⟨⟨name, hname⟩, hurls, ⟨content, hcontent⟩⟩, herror, hsync⟩
    obtain ⟨urls, hurls⟩ := readUrls_ok.mpr hurls
    obtain ⟨error, herror⟩ := readOptional_ok.mpr herror
    obtain ⟨syncError, hsync⟩ := readOptional_ok.mpr hsync
    exact ⟨_, by simp only [detail, toPrivateRecord, readWebpage, hurls, hsync, hname, herror,
      hcontent]; rfl⟩

theorem readable_congr {document' : Document} (howner : document'.userId = document.userId)
    (hid : document'.id = document.id) (stored field : String) :
    Readable pd document' stored field ↔ Readable pd document stored field := by
  rw [Readable, Readable, howner, hid]

theorem legible_congr {document' : Document} {page' : DocumentWebpage}
    (howner : document'.userId = document.userId) (hid : document'.id = document.id)
    (hname : document'.name = document.name) (hurls : page'.urls = page.urls)
    (hcontent : page'.content = page.content) :
    Legible pd document' page' ↔ Legible pd document page := by
  have hread : ∀ stored field, Readable pd document' stored field ↔ Readable pd document stored field :=
    readable_congr howner hid
  constructor
  · rintro ⟨h₁, h₂, h₃⟩
    rw [hname, hread] at h₁
    rw [hurls] at h₂
    rw [hcontent, hread] at h₃
    exact ⟨h₁, fun u hu => (hread _ _).mp (h₂ u hu), h₃⟩
  · rintro ⟨h₁, h₂, h₃⟩
    rw [← hname, ← hread] at h₁
    rw [← hurls] at h₂
    rw [← hcontent, ← hread] at h₃
    exact ⟨h₁, fun u hu => (hread _ _).mpr (h₂ u hu), h₃⟩

/-- The answer after an accepted `enqueue`: the request cleared `sync_error`, and `error` too
when nothing was published yet. -/
theorem detail_enqueued_ok {now : Time} :
    (∃ v, detail pd (enqueued now document page).1 (enqueued now document page).2 = .ok v) ↔
      Legible pd document page ∧ (page.contentHash ≠ none →
        ∀ stored, document.error = some stored → Readable pd document stored "document:error") := by
  have hlegible : Legible pd (enqueued now document page).1 (enqueued now document page).2 ↔
      Legible pd document page :=
    legible_congr enqueued_userId (enqueued_id _ _ _) enqueued_name rfl rfl
  have hcleared : (enqueued now document page).2.syncError = none := rfl
  rw [detail_ok, hlegible, enqueued_error]
  simp only [hcleared, Readable, enqueued_userId, enqueued_id]
  by_cases hhash : page.contentHash = none
  · simp [hhash]
  · simp [hhash]

theorem autoSyncSet_autoSync (now : Time) (document : Document) (page : DocumentWebpage)
    (autoSync : Bool) : (autoSyncSet now document page autoSync).2.autoSync = autoSync := by
  unfold autoSyncSet
  dsimp only
  split
  · next h => exact h
  · split <;> rfl

/-- The answer after `set_auto_sync`: the switch keeps every text. -/
theorem detail_autoSyncSet_ok {now : Time} {autoSync : Bool} :
    (∃ v, detail pd (autoSyncSet now document page autoSync).1
        (autoSyncSet now document page autoSync).2 = .ok v) ↔
      ∃ v, detail pd document page = .ok v := by
  obtain ⟨howner, hname, -, herror, hurls, hcontent, -, hsync, -⟩ :=
    autoSyncSet_fields now document page autoSync
  have hid := (autoSyncSet_id now document page autoSync).1
  rw [detail_ok, detail_ok, herror, hsync, legible_congr howner hid hname hurls hcontent]
  simp only [readable_congr howner hid]

end Detail

/-! ## What the methods do before they raise -/

section Methods

variable {pd : PrivateData} {db : Database} {documentId userId : Uuid}

theorem unchanged_of_raised {α : Type} {t : Except Exc (α × Database)} {e : Exc}
    (h : (Outcome.ofTransaction db t).result = .error e) : (Outcome.ofTransaction db t).db = db := by
  rcases Outcome.ofTransaction_cases db t with ⟨e', -, ho⟩ | ⟨a, db', -, ho⟩
  · rw [ho]
  · rw [ho] at h
    cases h

/-- An update of the two rows that changes the webpage row changes the rows. -/
theorem not_rowsUnchanged {document document' : Document} {page page' : DocumentWebpage}
    (hselect : select db documentId userId = some (document, page))
    (hid : page'.documentId = page.documentId) (hpage : page' ≠ page) :
    ¬ RowsUnchanged db ((db.updateDocument document').updateWebpage page') := by
  intro h
  obtain ⟨-, hview⟩ := select_eq_some_iff.mp hselect
  have hrow := (viewOf_eq_some_iff.mp hview).2.1
  have hold : db.webpage? page'.documentId = some page := by
    rw [hid, Database.webpage?_id hrow]
    exact hrow
  have hnew : db.webpage? page'.documentId = some page' := by
    have hwritten := Database.webpage?_updateWebpage hold page'.documentId
    rw [if_pos rfl] at hwritten
    rw [← hwritten, Database.webpage?, Database.webpage?, ← h.webpages]
    rfl
  exact hpage (Option.some.inj (hnew.symm.trans hold))

/-- An update that writes the rows back as they stand changes nothing. -/
theorem update_rows_back {document : Document} {page : DocumentWebpage}
    (hselect : select db documentId userId = some (document, page)) :
    (db.updateDocument document).updateWebpage page = db := by
  obtain ⟨-, hview⟩ := select_eq_some_iff.mp hselect
  obtain ⟨hdocument, hpage, -⟩ := viewOf_eq_some_iff.mp hview
  have hput : db.documents.put document = db.documents := by
    apply Table.put_of_find?
    rw [Database.document?_id hdocument]
    exact hdocument
  have hput' : db.webpages.put page = db.webpages := by
    apply Table.put_of_find?
    rw [Database.webpage?_id hpage]
    exact hpage
  exact Database.ext hput rfl hput' rfl rfl rfl rfl

theorem enqueueTransaction_of_select {now : Time} {document : Document} {page : DocumentWebpage}
    (hactive : userId ∉ db.erasedOwners)
    (hselect : select db documentId userId = some (document, page))
    (hqueued : page.syncStatus ≠ .queued) (hrunning : page.syncStatus ≠ .running) :
    enqueueTransaction now db documentId userId =
      .ok (some (enqueued now document page),
        (db.updateDocument (enqueued now document page).1).updateWebpage
          (enqueued now document page).2) := by
  simp [enqueueTransaction, lockActiveOwner, hactive, hselect, hqueued, hrunning, bind,
    Except.bind, pure, Except.pure]

theorem setAutoSyncTransaction_of_select {now : Time} {document : Document}
    {page : DocumentWebpage} {autoSync : Bool} (hactive : userId ∉ db.erasedOwners)
    (hselect : select db documentId userId = some (document, page)) :
    setAutoSyncTransaction now db documentId userId autoSync =
      .ok (some (autoSyncSet now document page autoSync),
        (db.updateDocument (autoSyncSet now document page autoSync).1).updateWebpage
          (autoSyncSet now document page autoSync).2) := by
  simp [setAutoSyncTransaction, lockActiveOwner, hactive, hselect, bind, Except.bind, pure,
    Except.pure]

end Methods

/-- What a method reads for its answer once it has changed a row: `enqueue` and
`set_auto_sync` do, after their commit. -/
def Answerable : WebpageMethod → Database → Prop
  | .call (.enqueue cipher _ documentId userId), db =>
      ∀ document page, select db documentId userId = some (document, page) →
        userId ∉ db.erasedOwners → page.syncStatus ≠ .queued → page.syncStatus ≠ .running →
          Legible cipher.privateData document page ∧ (page.contentHash ≠ none →
            ∀ stored, document.error = some stored →
              Readable cipher.privateData document stored "document:error")
  | .call (.setAutoSync cipher _ documentId userId autoSync), db =>
      ∀ document page, select db documentId userId = some (document, page) →
        userId ∉ db.erasedOwners → page.autoSync ≠ autoSync →
          Legible cipher.privateData document page ∧
            (∀ stored, document.error = some stored →
              Readable cipher.privateData document stored "document:error") ∧
            ∀ stored, page.syncError = some stored →
              Readable cipher.privateData document stored "webpage:error"
  | _, _ => True

section Answers

variable {cipher : PrivateDataCipher} {db : Database} {now : Time} {documentId userId : Uuid}

/-- A committed change and an answer that cannot be read. -/
theorem not_allOrNothing {m : WebpageMethod} {db' : Database} {e : Exc}
    (hexec : m.exec db = (.detail (.error e), db')) (hchanged : ¬ RowsUnchanged db db') :
    ¬ AllOrNothing m db := by
  intro h
  have hrows := h e (by rw [hexec]; rfl)
  rw [hexec] at hrows
  exact hchanged hrows

/-- `enqueue` is all or nothing exactly when the row that it has queued decrypts: its answer is read
after the commit. -/
theorem enqueue_allOrNothing_iff :
    AllOrNothing (.call (.enqueue cipher now documentId userId)) db ↔
      Answerable (.call (.enqueue cipher now documentId userId)) db := by
  constructor
  · intro h document page hselect hactive hqueued hrunning
    apply detail_enqueued_ok.mp
    cases hread : detail cipher.privateData (enqueued now document page).1
        (enqueued now document page).2 with
    | ok v => exact ⟨v, rfl⟩
    | error e =>
        have ht : enqueueTransaction now db documentId userId = _ :=
          enqueueTransaction_of_select hactive hselect hqueued hrunning
        have hchanged : ¬ RowsUnchanged db ((db.updateDocument (enqueued now document page).1).updateWebpage
            (enqueued now document page).2) :=
          not_rowsUnchanged hselect rfl
            (fun hsame => hqueued (congrArg DocumentWebpage.syncStatus hsame).symm)
        refine absurd h (not_allOrNothing (e := e) ?_ hchanged)
        simp only [WebpageMethod.exec, WebpageCall.exec, enqueue, ht, Outcome.afterCommit,
          committedDetail, hread]
        rfl
  · intro h e he
    rcases Outcome.afterCommit_cases db (enqueueTransaction now db documentId userId)
        (committedDetail cipher.privateData) with ⟨e', _, ho⟩ | ⟨rows, db', ht, ho⟩
    · simp only [WebpageMethod.exec, WebpageCall.exec, enqueue, ho]
      exact .of_eq rfl
    simp only [WebpageMethod.exec, WebpageCall.exec, enqueue, ho] at he ⊢
    rcases enqueueTransaction_ok ht with ⟨rfl, rfl⟩ | ⟨v, hv, howner, hqueued, hrunning, rfl, rfl⟩
    · exact .of_eq rfl
    · have hactive : userId ∉ db.erasedOwners := by
        obtain ⟨_, hlock, -⟩ := bind_eq_ok.mp ht
        exact lockActiveOwner_ok hlock
      have hselect := select_of_viewOf hv howner
      obtain ⟨d, hd⟩ : ∃ d, detail cipher.privateData (enqueued now v.document v.page).1
          (enqueued now v.document v.page).2 = .ok d :=
        detail_enqueued_ok.mpr (h _ _ hselect hactive hqueued hrunning)
      rw [committedDetail, hd] at he
      cases he

/-- So is `set_auto_sync`, which commits the switch before it reads its answer. -/
theorem setAutoSync_allOrNothing_iff {autoSync : Bool} :
    AllOrNothing (.call (.setAutoSync cipher now documentId userId autoSync)) db ↔
      Answerable (.call (.setAutoSync cipher now documentId userId autoSync)) db := by
  constructor
  · intro h document page hselect hactive hswitch
    apply detail_ok.mp
    apply detail_autoSyncSet_ok.mp
    cases hread : detail cipher.privateData (autoSyncSet now document page autoSync).1
        (autoSyncSet now document page autoSync).2 with
    | ok v => exact ⟨v, rfl⟩
    | error e =>
        have ht : setAutoSyncTransaction now db documentId userId autoSync = _ :=
          setAutoSyncTransaction_of_select hactive hselect
        have hid := (autoSyncSet_id now document page autoSync).2
        have hchanged : ¬ RowsUnchanged db
            ((db.updateDocument (autoSyncSet now document page autoSync).1).updateWebpage
              (autoSyncSet now document page autoSync).2) := by
          refine not_rowsUnchanged hselect hid fun hsame => hswitch ?_
          rw [← hsame, autoSyncSet_autoSync]
        refine absurd h (not_allOrNothing (e := e) ?_ hchanged)
        simp only [WebpageMethod.exec, WebpageCall.exec, setAutoSync, ht, Outcome.afterCommit,
          committedDetail, hread]
        rfl
  · intro h e he
    rcases Outcome.afterCommit_cases db (setAutoSyncTransaction now db documentId userId autoSync)
        (committedDetail cipher.privateData) with ⟨e', _, ho⟩ | ⟨rows, db', ht, ho⟩
    · simp only [WebpageMethod.exec, WebpageCall.exec, setAutoSync, ho]
      exact .of_eq rfl
    simp only [WebpageMethod.exec, WebpageCall.exec, setAutoSync, ho] at he ⊢
    rcases setAutoSyncTransaction_ok ht with ⟨rfl, rfl⟩ | ⟨v, hv, howner, rfl, rfl⟩
    · exact .of_eq rfl
    have hselect := select_of_viewOf hv howner
    by_cases hswitch : v.page.autoSync = autoSync
    · -- a switch that already stands so is written back as it is
      rw [autoSyncSet, if_pos hswitch]
      exact .of_eq (update_rows_back hselect)
    · have hactive : userId ∉ db.erasedOwners := by
        obtain ⟨_, hlock, -⟩ := bind_eq_ok.mp ht
        exact lockActiveOwner_ok hlock
      obtain ⟨d, hd⟩ : ∃ d, detail cipher.privateData (autoSyncSet now v.document v.page autoSync).1
          (autoSyncSet now v.document v.page autoSync).2 = .ok d :=
        detail_autoSyncSet_ok.mpr (detail_ok.mpr (h _ _ hselect hactive hswitch))
      rw [committedDetail, hd] at he
      cases he

end Answers

/-- A webpage method is all or nothing exactly when its answer can be read.  `create`, `claim`,
`finish` and `fail` always are: they raise inside their transaction, and what raises rolls back.
`enqueue` and `set_auto_sync` decrypt the row for their answer after the commit, so a row that does
not decrypt leaves them with an exception and a changed row. -/
theorem allOrNothing_iff (m : WebpageMethod) (db : Database) :
    AllOrNothing m db ↔ Answerable m db := by
  cases m with
  | call c =>
      cases c with
      | enqueue => exact enqueue_allOrNothing_iff
      | setAutoSync => exact setAutoSync_allOrNothing_iff
      | create =>
          refine ⟨fun _ => trivial, fun _ e he => .of_eq ?_⟩
          exact unchanged_of_raised (WebpageAnswer.eq_error_of_raised_record he)
      | claimCandidate =>
          refine ⟨fun _ => trivial, fun _ e he => .of_eq ?_⟩
          exact unchanged_of_raised (WebpageAnswer.eq_error_of_raised_claim he)
      | finish =>
          refine ⟨fun _ => trivial, fun _ e he => .of_eq ?_⟩
          exact unchanged_of_raised (WebpageAnswer.eq_error_of_raised_done he)
      | fail =>
          refine ⟨fun _ => trivial, fun _ e he => .of_eq ?_⟩
          exact unchanged_of_raised (WebpageAnswer.eq_error_of_raised_done he)
  | claim cipher clock uuid4 =>
      refine ⟨fun _ => trivial, fun _ e he => .of_eq ?_⟩
      have hraised := WebpageAnswer.eq_error_of_raised_claim he
      rcases claim_spec (Eq.refl (claim cipher.privateData clock uuid4 db)) with
        ⟨hdb, -⟩ | ⟨_, _, _, _, -, hclaimed⟩
      · exact hdb
      · rw [hraised] at hclaimed
        cases hclaimed

/-- The service when OpenBao does not answer. -/
def downCipher : PrivateDataCipher where
  encrypt := fun _ _ => .error .privateDataUnavailable
  decrypt := fun _ _ => .error .privateDataUnavailable
  lookup := fun _ _ => .error .privateDataUnavailable

/-- A request for a sync of the published document of the sample run, while OpenBao does not
answer: it raises, and the sync is queued. -/
theorem enqueue_not_allOrNothing :
    ¬ AllOrNothing (.call (.enqueue downCipher 30 7 1)) (sampleRun 3).2 := by
  intro h
  have hraised : ((WebpageMethod.call (.enqueue downCipher 30 7 1)).exec (sampleRun 3).2).1.raised =
      some .privateDataUnavailable := by decide +kernel
  have hpages := congrArg Table.rows (h _ hraised).webpages
  revert hpages
  decide +kernel

end PortRag.Webpages
