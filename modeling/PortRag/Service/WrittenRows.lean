import PortRag.Service.Written

set_option autoImplicit false

/-!
# Changed rows and their columns

One lemma for each way in which a call changes rows: which fields the columns say were written
by it, and which removed.  The calls of `WrittenCalls` are put together from them.
-/

namespace PortRag.Service

open PortRag.Foundation PortRag.Db PortRag.Security PortRag.Http PortRag.Ingest PortRag.Webpages
  PortRag.Knowledge PortRag.Search

variable {db db' : Database} {id : Uuid}

/-! ## Changes of rows -/

/-- A settled document: its error is written. -/
theorem takes_updateDocument {d old : Document} (hold : db.document? d.id = some old)
    (hname : d.name = old.name) :
    (Update.ofList [(PrivateField.error d.id, Source.value (nullable d.error))]
      (fun _ => False)).Takes (column db) (column (db.updateDocument d)) := by
  constructor
  · intro field source hmem
    cases List.mem_singleton.mp hmem
    rw [column_updateDocument hold hname, if_pos rfl]
    rfl
  · exact fun _ _ h => h.elim
  · rintro field ⟨hnone, -⟩
    rw [column_updateDocument hold hname, if_neg]
    rintro rfl
    exact hnone _ (List.mem_singleton_self _)

/-- Changed rows of a webpage document: what differs from before is among the assignments. -/
theorem takes_updateRows {v : PageView} (hv : viewOf db id = some v) {d : Document}
    {p : DocumentWebpage} (hd : d.id = id) (hp : p.documentId = id)
    (hname : d.name = v.document.name) (hurls : p.urls = v.page.urls) {l : List Assignment}
    (hl : ∀ a ∈ l, a = (.syncError id, .value (nullable p.syncError)) ∨
      a = (.content id, .value (.str p.content)) ∨ a = (.error id, .value (nullable d.error)))
    (hsync : (∀ s, (PrivateField.syncError id, s) ∉ l) → p.syncError = v.page.syncError)
    (hcontent : (∀ s, (PrivateField.content id, s) ∉ l) → p.content = v.page.content)
    (herror : (∀ s, (PrivateField.error id, s) ∉ l) → d.error = v.document.error) :
    (Update.ofList l (fun _ => False)).Takes (column db)
      (column ((db.updateDocument d).updateWebpage p)) := by
  have hcolumn := column_updateRows hv hd hp hname hurls
  obtain ⟨hbefore, hbefore', hbefore''⟩ := column_of_viewOf hv
  constructor
  · intro field source hmem
    rw [hcolumn]
    rcases hl _ hmem with h | h | h <;> cases h
    · rw [if_pos rfl]
      rfl
    · rw [if_neg (by simp), if_pos rfl]
      rfl
    · rw [if_neg (by simp), if_neg (by simp), if_pos rfl]
      rfl
  · exact fun _ _ h => h.elim
  · rintro field ⟨hnone, -⟩
    rw [hcolumn]
    split
    · next h =>
        subst h
        rw [hsync hnone, hbefore'']
    split
    · next h =>
        subst h
        rw [hcontent hnone, hbefore']
    split
    · next h =>
        subst h
        rw [herror hnone, hbefore]
    · rfl

/-- The rows of a publication in the clear: row number `k` holds chunk number `k`. -/
theorem chunkRows_plain {uuid4 : Nat → Uuid} {owner : String} {chunks : List IngestChunk}
    {embeddings : List Embedding} {rows : List DocumentChunk}
    (h : chunkRows .plain uuid4 owner id chunks embeddings = .ok rows) :
    (∀ row ∈ rows, row.documentId = id ∧ ∃ z ∈ chunks.zipIdx, row.id = uuid4 z.2) ∧
      ∀ z ∈ chunks.zipIdx, ∃ row ∈ rows,
        row.id = uuid4 z.2 ∧ row.text = z.1.text ∧ row.metadata = z.1.metadata := by
  have hbuilt : (chunks.zip embeddings).zipIdx.mapM
      (fun z => chunkRow .plain owner id (uuid4 z.2) z.1.1 z.1.2) =
      .ok ((chunks.zip embeddings).zipIdx.map (fun z => (⟨uuid4 z.2, id, z.1.1.seq, z.1.1.text,
        z.1.1.metadata, z.1.2⟩ : DocumentChunk))) := mapM_ok_map _ _
  unfold chunkRows at h
  rw [hbuilt] at h
  obtain ⟨built, hsame, h⟩ := bind_eq_ok.mp h
  cases hsame
  split at h
  · next hlength =>
      cases pure_eq_ok.mp h
      constructor
      · intro row hrow
        obtain ⟨⟨⟨chunk, embedding⟩, k⟩, hz, rfl⟩ := List.mem_map.mp hrow
        have hget := List.getElem?_zip_eq_some.mp (List.mk_mem_zipIdx_iff_getElem?.mp hz)
        exact ⟨rfl, (chunk, k), List.mk_mem_zipIdx_iff_getElem?.mpr hget.1, rfl⟩
      · rintro ⟨chunk, k⟩ hz
        have hget := List.mk_mem_zipIdx_iff_getElem?.mp hz
        have hlt : k < embeddings.length := by
          rw [← hlength]
          exact (List.getElem?_eq_some_iff.mp hget).1
        have hpair : (chunks.zip embeddings)[k]? = some (chunk, embeddings[k]) :=
          List.getElem?_zip_eq_some.mpr ⟨hget, List.getElem?_eq_getElem hlt⟩
        exact ⟨_, List.mem_map_of_mem (List.mk_mem_zipIdx_iff_getElem?.mpr hpair), rfl, rfl, rfl⟩
  · cases h

/-- The assignments of a publication, by chunk. -/
theorem mem_chunkAssignments {uuid4 : Nat → Uuid} {chunks : List IngestChunk} {a : Assignment} :
    a ∈ chunkAssignments uuid4 id chunks ↔ ∃ z ∈ chunks.zipIdx,
      a = (.text id (uuid4 z.2), .value (.str z.1.text)) ∨
        a = (.metadata id (uuid4 z.2), .value z.1.metadata) := by
  simp [chunkAssignments, written]

/-- A publication writes to fields of chunks only. -/
theorem chunkOf?_of_mem {uuid4 : Nat → Uuid} {chunks : List IngestChunk} {a : Assignment}
    (h : a ∈ chunkAssignments uuid4 id chunks) : a.1.chunkOf? = some id := by
  obtain ⟨z, -, rfl | rfl⟩ := mem_chunkAssignments.mp h <;> rfl

/-- Writes to fields of a document's rows stay apart from a replacement of its chunks. -/
theorem apart_of_replaced {uuid4 : Nat → Uuid} {chunks : List IngestChunk} {l : List Assignment}
    (h : ∀ a ∈ l, a.1.chunkOf? = none) : ∀ a ∈ l,
      (∀ b ∈ chunkAssignments uuid4 id chunks, b.1 ≠ a.1) ∧ ¬a.1.chunkOf? = some id := by
  intro a ha
  constructor
  · intro b hb hsame
    have hchunk := chunkOf?_of_mem hb
    rw [hsame, h a ha] at hchunk
    cases hchunk
  · rw [h a ha]
    simp

/-- Replaced chunk rows: the texts and the metadata of the new chunks are written, and those of
the old ones removed. -/
theorem takes_replaceChunks {uuid4 : Nat → Uuid} {owner : String} {chunks : List IngestChunk}
    {embeddings : List Embedding} {rows : List DocumentChunk}
    (hrows : chunkRows .plain uuid4 owner id chunks embeddings = .ok rows)
    (h : (db.deleteChunks id).insertChunks rows = .ok db') :
    (Update.ofList (chunkAssignments uuid4 id chunks) (fun field => field.chunkOf? = some id)).Takes
      (column db) (column db') := by
  obtain ⟨hfrom, hto⟩ := chunkRows_plain hrows
  have hview := viewOf_replaceChunks (fun row hrow => (hfrom row hrow).1) h
  have hchunks : db'.chunksOf id = rows := ((hview id).2.2).trans (if_pos rfl)
  have hfrozen : ∀ other, db'.frozenOf other = db.frozenOf other := by
    obtain ⟨t, ht, hfk, rfl⟩ := Database.insertChunks_ok h
    exact fun _ => rfl
  have hfound : ∀ z ∈ chunks.zipIdx, ∃ row, chunk? db' id (uuid4 z.2) = some row ∧
      row.text = z.1.text ∧ row.metadata = z.1.metadata := by
    intro z hz
    obtain ⟨row, hrow, hid, htext, hmetadata⟩ := hto z hz
    exact ⟨row, hid ▸ chunk?_of_mem (hchunks ▸ hrow), htext, hmetadata⟩
  have hgone : ∀ chunkId, (∀ z ∈ chunks.zipIdx, chunkId ≠ uuid4 z.2) →
      chunk? db' id chunkId = none := by
    intro chunkId hne
    cases hfind : chunk? db' id chunkId with
    | none => rfl
    | some row =>
        obtain ⟨hmem, hid⟩ := mem_of_chunk? hfind
        obtain ⟨-, z, hz, hrow⟩ := hfrom row (hchunks ▸ hmem)
        exact absurd (hid.symm.trans hrow) (hne z hz)
  constructor
  · intro field source hmem
    obtain ⟨z, hz, hassigned⟩ := mem_chunkAssignments.mp hmem
    obtain ⟨row, hrow, htext, hmetadata⟩ := hfound z hz
    rcases hassigned with heq | heq <;> cases heq
    · simp [column, hrow, htext, Source.read]
    · simp [column, hrow, hmetadata, Source.read]
  · intro field hnone hremoved
    cases field with
    | text other chunkId =>
        cases hremoved
        have hne : ∀ z ∈ chunks.zipIdx, chunkId ≠ uuid4 z.2 := fun z hz hsame =>
          hnone _ (mem_chunkAssignments.mpr ⟨z, hz, .inl (by rw [hsame])⟩)
        simp only [column, hgone chunkId hne, Option.map_none]
    | metadata other chunkId =>
        cases hremoved
        have hne : ∀ z ∈ chunks.zipIdx, chunkId ≠ uuid4 z.2 := fun z hz hsame =>
          hnone _ (mem_chunkAssignments.mpr ⟨z, hz, .inr (by rw [hsame])⟩)
        simp only [column, hgone chunkId hne, Option.map_none]
    | _ => cases hremoved
  · rintro field ⟨-, hkept⟩
    have hother : ∀ other, other ≠ id → db'.chunksOf other = db.chunksOf other :=
      fun other hne => ((hview other).2.2).trans (if_neg hne)
    cases field with
    | text other chunkId =>
        have hne : other ≠ id := fun hsame => hkept (congrArg some hsame)
        simp only [column, chunk?, hother other hne]
    | metadata other chunkId =>
        have hne : other ≠ id := fun hsame => hkept (congrArg some hsame)
        simp only [column, chunk?, hother other hne]
    | _ => simp only [column, frozen?, hfrozen, (hview _).1, (hview _).2.1]

/-- A new document: its name and its missing error are written. -/
theorem takes_insertDocument {d : Document} (h : db.insertDocument d = .ok db') :
    (Update.ofList [written (.name d.id) d.name, (.error d.id, .value (nullable d.error))]
      (fun _ => False)).Takes (column db) (column db') := by
  obtain ⟨hfresh, t, ht, rfl⟩ := Database.insertDocument_ok h
  have hfind := Database.document?_withDocument ht
  constructor
  · intro field source hmem
    rcases List.mem_pair.mp hmem with heq | heq <;> cases heq
    · simp [column, hfind, Source.read]
    · simp [column, hfind, Source.read]
  · exact fun _ _ h => h.elim
  · rintro field ⟨hnone, -⟩
    cases field with
    | name other =>
        have hne : other ≠ d.id := by
          rintro rfl
          exact hnone _ List.mem_cons_self
        simp [column, hfind, hne]
    | error other =>
        have hne : other ≠ d.id := by
          rintro rfl
          exact hnone _ (List.mem_cons_of_mem _ List.mem_cons_self)
        simp [column, hfind, hne]
    | _ => rfl

/-- A new webpage row: its URLs, its content and its missing sync error are written. -/
theorem takes_insertWebpage {p : DocumentWebpage} (hfresh : db.webpage? p.documentId = none)
    (h : db.insertWebpage p = .ok db') :
    (Update.ofList ([written (.content p.documentId) p.content,
        (.syncError p.documentId, .value (nullable p.syncError))] ++
        p.urls.zipIdx.map (fun u => written (.url p.documentId u.2) u.1))
      (fun _ => False)).Takes (column db) (column db') := by
  obtain ⟨t, ht, hfk, rfl⟩ := Database.insertWebpage_ok h
  have hfind := Database.webpage?_withWebpage ht hfk
  constructor
  · intro field source hmem
    rcases List.mem_append.mp hmem with hmem | hmem
    · rcases List.mem_pair.mp hmem with heq | heq <;> cases heq
      · simp [column, hfind, Source.read]
      · simp [column, hfind, Source.read]
    · obtain ⟨⟨url, index⟩, hurl, heq⟩ := List.mem_map.mp hmem
      cases heq
      have hget := List.mk_mem_zipIdx_iff_getElem?.mp hurl
      simp [column, hfind, hget, Source.read]
  · exact fun _ _ h => h.elim
  · rintro field ⟨hnone, -⟩
    cases field with
    | content other =>
        have hne : other ≠ p.documentId := by
          rintro rfl
          exact hnone _ (List.mem_append_left _ List.mem_cons_self)
        simp [column, hfind, hne]
    | syncError other =>
        have hne : other ≠ p.documentId := by
          rintro rfl
          exact hnone _ (List.mem_append_left _ (List.mem_cons_of_mem _ List.mem_cons_self))
        simp [column, hfind, hne]
    | url other index =>
        by_cases hother : other = p.documentId
        · subst hother
          have hget : p.urls[index]? = none := by
            cases hget : p.urls[index]? with
            | none => rfl
            | some url =>
                refine absurd (List.mem_append_right _ ?_) (hnone (.value (.str url)))
                exact List.mem_map_of_mem (f := fun u => written (.url p.documentId u.2) u.1)
                  (List.mk_mem_zipIdx_iff_getElem?.mpr hget)
          simp [column, hfind, hget, hfresh]
        · simp [column, hfind, hother]
    | _ => rfl

/-! ## Deletion -/

/-- A document that a deletion removes is gone with its rows; every other document keeps its
rows. -/
theorem rows_deleteDocument (db : Database) (id userId other : Uuid) :
    if (db.deleteDocument id userId).2 = true ∧ other = id then
      (db.deleteDocument id userId).1.document? other = none ∧
        (db.deleteDocument id userId).1.webpage? other = none ∧
        (db.deleteDocument id userId).1.chunksOf other = []
    else
      (db.deleteDocument id userId).1.document? other = db.document? other ∧
        (db.deleteDocument id userId).1.webpage? other = db.webpage? other ∧
        (db.deleteDocument id userId).1.chunksOf other = db.chunksOf other := by
  have hdone : (db.deleteDocument id userId).2 = true ↔
      ∃ d ∈ db.documents.rows, d.id = id ∧ d.userId = userId := by
    simp [Database.deleteDocument]
  have hkeeps : ∀ d, db.document? other = some d →
      (decide (¬(d.id = id ∧ d.userId = userId)) = true ↔
        ¬((db.deleteDocument id userId).2 = true ∧ other = id)) := by
    intro d hd
    obtain ⟨hmem, rfl⟩ := Database.document?_eq_some_iff.mp hd
    rw [decide_eq_true_eq, not_iff_not, hdone]
    constructor
    · rintro ⟨hid, howner⟩
      exact ⟨⟨d, hmem, hid, howner⟩, hid⟩
    · rintro ⟨⟨d', hmem', hid', howner'⟩, hid⟩
      rw [Table.eq_of_key hmem hmem' (hid.trans hid'.symm)]
      exact ⟨hid', howner'⟩
  have hdocument := Database.document?_keepDocuments db
    (fun d => ¬(d.id = id ∧ d.userId = userId)) other
  have hwebpage := Database.webpage?_keepDocuments db
    (fun d => ¬(d.id = id ∧ d.userId = userId)) other
  have hchunks := Database.chunksOf_keepDocuments db
    (fun d => ¬(d.id = id ∧ d.userId = userId)) other
  unfold Database.deleteDocument at hkeeps ⊢
  dsimp only at hkeeps ⊢
  rw [hdocument, hwebpage, hchunks]
  cases hd : db.document? other with
  | none =>
      rw [Database.webpage?_of_document?_none hd, Database.chunksOf_of_document?_none hd]
      simp
  | some d =>
      have hd' := hkeeps d hd
      split
      · next hgone =>
          have hfalse : decide (¬(d.id = id ∧ d.userId = userId)) = false :=
            Bool.eq_false_iff.mpr (fun htrue => hd'.mp htrue hgone)
          simp only [Option.filter_some, Option.any_some, hfalse]
          simp
      · next hkept =>
          have htrue := hd'.mpr hkept
          simp only [Option.filter_some, Option.any_some, htrue]
          simp

/-- A deletion removes every field of its document, or nothing; the fields of frozen rows stay. -/
theorem takes_deleteDocument (db : Database) (id userId : Uuid) :
    (Update.ofList [] (fun field : PrivateField =>
      (db.deleteDocument id userId).2 = true ∧ field.document? = some id)).Takes (column db)
      (column (db.deleteDocument id userId).1) := by
  have hrows := rows_deleteDocument db id userId
  have hfrozen : ∀ other, (db.deleteDocument id userId).1.frozenOf other = db.frozenOf other :=
    fun _ => rfl
  constructor
  · exact fun _ _ h => absurd h List.not_mem_nil
  · rintro field - ⟨hdone, hid⟩
    have hgone := hrows id
    rw [if_pos ⟨hdone, rfl⟩] at hgone
    obtain ⟨hdocument, hwebpage, hchunks⟩ := hgone
    cases field with
    | frozenName _ _ => cases hid
    | frozenText _ _ => cases hid
    | frozenMetadata _ _ => cases hid
    | _ =>
        cases hid
        simp [column, chunk?, hdocument, hwebpage, hchunks]
  · rintro field ⟨-, hkept⟩
    have hother : ∀ other, field.document? = some other →
        (db.deleteDocument id userId).1.document? other = db.document? other ∧
          (db.deleteDocument id userId).1.webpage? other = db.webpage? other ∧
          (db.deleteDocument id userId).1.chunksOf other = db.chunksOf other := by
      intro other hfield
      have hne : ¬((db.deleteDocument id userId).2 = true ∧ other = id) := by
        rintro ⟨hdone, rfl⟩
        exact hkept ⟨hdone, hfield⟩
      have hsame := hrows other
      rwa [if_neg hne] at hsame
    cases field with
    | frozenName _ _ => simp only [column, frozen?, hfrozen]
    | frozenText _ _ => simp only [column, frozen?, hfrozen]
    | frozenMetadata _ _ => simp only [column, frozen?, hfrozen]
    | _ =>
        obtain ⟨hdocument, hwebpage, hchunks⟩ := hother _ rfl
        simp only [column, chunk?, hdocument, hwebpage, hchunks]

/-! ## Revisions -/

/-- The rows that a revision freezes, by document and chunk. -/
theorem fileRows_eq (db : Database) (userId : Uuid) (selected : Option (List Uuid)) :
    fileRows (sourceRows db userId selected) =
      ((selectedChunks db userId selected).filter (fun s => (db.webpage? s.1.id).isNone)).map
        (fun s => sourceRow db s.1 s.2) := by
  have hjoined : joinedRows db userId selected =
      ((db.documents.rows.filter (selectable userId selected)).flatMap
        (fun d => (db.chunksOf d.id).map (fun c => (d, c)))).map
        (fun s : Document × DocumentChunk => sourceRow db s.1 s.2) := by
    rw [List.map_flatMap]
    simp only [List.map_map]
    rfl
  unfold fileRows sourceRows selectedChunks
  rw [hjoined, ← List.map_mergeSort (r := fun a b : Document × DocumentChunk =>
    a.1.id < b.1.id || (a.1.id = b.1.id && a.2.seq ≤ b.2.seq)), List.filter_map]
  · congr 2
    funext s
    cases hpage : db.webpage? s.1.id <;> simp [sourceRow, hpage]
  · exact fun _ _ _ _ => rfl

/-- A copied chunk is a chunk of its document. -/
theorem mem_selectedChunks {userId : Uuid} {selected : Option (List Uuid)} {d : Document}
    {c : DocumentChunk} (h : (d, c) ∈ selectedChunks db userId selected) :
    db.document? d.id = some d ∧ c ∈ db.chunksOf d.id := by
  obtain ⟨d', hd', hc⟩ := List.mem_flatMap.mp (List.mem_mergeSort.mp h)
  obtain ⟨c', hc', heq⟩ := List.mem_map.mp hc
  cases heq
  exact ⟨Table.find?_of_mem (List.mem_filter.mp hd').1, hc'⟩

/-- The frozen chunks of a store in the clear: row number `k` holds the columns of chunk number
`k`. -/
theorem frozenRows_plain {uuid4 : Nat → Uuid} {userId revisionId : Uuid}
    {selected : Option (List Uuid)} {frozen : List KnowledgeRevisionChunk}
    (h : (fileRows (sourceRows db userId selected)).zipIdx.mapM
      (fun z => frozenRow .plain userId revisionId (uuid4 z.2) z.1) = .ok frozen) :
    (∀ row ∈ frozen, row.revisionId = revisionId ∧
        ∃ z ∈ (copiedChunks db userId selected).zipIdx, row.id = uuid4 z.2) ∧
      ∀ z ∈ (copiedChunks db userId selected).zipIdx, ∃ row ∈ frozen, row.id = uuid4 z.2 ∧
        column db (.name z.1.1) = some (.str row.documentName) ∧
        column db (.text z.1.1 z.1.2) = some (.str row.text) ∧
        column db (.metadata z.1.1 z.1.2) = some row.metadata := by
  have hfrozen : frozen = (fileRows (sourceRows db userId selected)).zipIdx.map
      (fun z => (⟨uuid4 z.2, revisionId, z.1.documentId, z.1.documentName, z.1.seq, z.1.text,
        z.1.metadata, z.1.embedding⟩ : KnowledgeRevisionChunk)) :=
    (Except.ok.inj ((mapM_ok_map _ _).symm.trans h)).symm
  rw [fileRows_eq, List.zipIdx_map, List.map_map] at hfrozen
  unfold copiedChunks
  rw [List.zipIdx_map]
  constructor
  · intro row hrow
    rw [hfrozen] at hrow
    obtain ⟨z, hz, rfl⟩ := List.mem_map.mp hrow
    exact ⟨rfl, _, List.mem_map_of_mem hz, rfl⟩
  · intro z hz
    obtain ⟨⟨⟨d, c⟩, k⟩, hsource, rfl⟩ := List.mem_map.mp hz
    have hmem := List.mem_of_mem_filter (List.fst_mem_of_mem_zipIdx hsource)
    obtain ⟨hd, hc⟩ := mem_selectedChunks hmem
    refine ⟨_, hfrozen ▸ List.mem_map_of_mem hsource, rfl, ?_, ?_, ?_⟩
    · simp [column, hd, sourceRow]
    · simp [column, chunk?_of_mem hc, sourceRow]
    · simp [column, chunk?_of_mem hc, sourceRow]

/-- The assignments of a revision, by copied chunk. -/
theorem mem_frozenAssignments {uuid4 : Nat → Uuid} {revisionId : Uuid}
    {sources : List (Uuid × Uuid)} {a : Assignment} :
    a ∈ frozenAssignments uuid4 revisionId sources ↔ ∃ z ∈ sources.zipIdx,
      a = (.frozenName revisionId (uuid4 z.2), .copy (.name z.1.1)) ∨
        a = (.frozenText revisionId (uuid4 z.2), .copy (.text z.1.1 z.1.2)) ∨
        a = (.frozenMetadata revisionId (uuid4 z.2), .copy (.metadata z.1.1 z.1.2)) := by
  simp [frozenAssignments]

/-- A new revision: its frozen fields are copies of the fields of their sources. -/
theorem takes_createRevision {uuid4 : Nat → Uuid} {revisionId userId : Uuid} {now : Time}
    {selected : Option (List Uuid)} {record : KnowledgeRevisionRecord}
    (h : Knowledge.createTransaction .plain uuid4 revisionId now db userId selected =
      .ok (record, db')) :
    (Update.ofList (frozenAssignments uuid4 revisionId (copiedChunks db userId selected))
      (fun _ => False)).Takes (column db) (column db') := by
  obtain ⟨frozen, withRevision, withChunks, -, hrevision, hrows, hchunks, hmembers, -⟩ :=
    Knowledge.createTransaction_ok h
  obtain ⟨hfrom, hto⟩ := frozenRows_plain hrows
  obtain ⟨hnew, t, ht, rfl⟩ := Database.insertRevision_ok hrevision
  obtain ⟨u, hu, hfk, rfl⟩ := Database.insertRevisionChunks_ok hchunks
  obtain ⟨w, hw, hfk', rfl⟩ := Database.insertRevisionWebpages_ok hmembers
  have hbefore : db.frozenOf revisionId = [] := Database.frozenOf_of_find?_none hnew
  let after := ((db.withRevision t ⟨revisionId, userId, now⟩ ht).withRevisionChunks u frozen hu
    hfk).withRevisionWebpages w _ hw hfk'
  have hafter : ∀ other, after.frozenOf other =
      if other = revisionId then frozen else db.frozenOf other := by
    intro other
    have hrest : after.frozenOf other = db.frozenOf other ++
        frozen.filter (fun c => c.revisionId = other) := by
      change u.rows.filter _ = _
      rw [hu, List.filter_append]
      rfl
    rw [hrest]
    split
    · next hother =>
        rw [hother, hbefore, List.nil_append, List.filter_eq_self]
        exact fun row hrow => decide_eq_true (hfrom row hrow).1
    · next hother =>
        rw [List.append_right_eq_self, List.filter_eq_nil_iff]
        intro row hrow
        rw [(hfrom row hrow).1]
        simpa using fun h => hother h.symm
  have hfound : ∀ row ∈ frozen, frozen? after revisionId row.id = some row := fun row hrow =>
    frozen?_of_mem ((hafter revisionId).trans (if_pos rfl) ▸ hrow)
  constructor
  · intro field source hmem
    obtain ⟨z, hz, hassigned⟩ := mem_frozenAssignments.mp hmem
    obtain ⟨row, hrow, hid, hname, htext, hmetadata⟩ := hto z hz
    have hfind := hfound row hrow
    rw [hid] at hfind
    rcases hassigned with heq | heq | heq <;> cases heq
    · change (frozen? after revisionId (uuid4 z.2)).map _ = column db (.name z.1.1)
      rw [hfind, hname]
      rfl
    · change (frozen? after revisionId (uuid4 z.2)).map _ = column db (.text z.1.1 z.1.2)
      rw [hfind, htext]
      rfl
    · change (frozen? after revisionId (uuid4 z.2)).map _ = column db (.metadata z.1.1 z.1.2)
      rw [hfind, hmetadata]
      rfl
  · exact fun _ _ h => h.elim
  · rintro field ⟨hnone, -⟩
    -- A frozen row that the revision did not write is of another revision.
    have hkept : ∀ other chunkId, (∀ z ∈ (copiedChunks db userId selected).zipIdx,
        ¬(other = revisionId ∧ chunkId = uuid4 z.2)) →
        frozen? after other chunkId = frozen? db other chunkId := by
      intro other chunkId hne
      by_cases hother : other = revisionId
      · subst hother
        have hnothing : frozen? after other chunkId = none := by
          cases hfind : frozen? after other chunkId with
          | none => rfl
          | some row =>
              obtain ⟨hmem, hid⟩ := mem_of_frozen? hfind
              rw [hafter, if_pos rfl] at hmem
              obtain ⟨-, z, hz, hrow⟩ := hfrom row hmem
              exact absurd ⟨rfl, hid.symm.trans hrow⟩ (hne z hz)
        rw [hnothing, frozen?, hbefore]
        rfl
      · rw [frozen?, frozen?, hafter, if_neg hother]
    cases field with
    | frozenName other chunkId =>
        refine congrArg (Option.map _) (hkept other chunkId ?_)
        rintro z hz ⟨rfl, rfl⟩
        exact hnone _ (mem_frozenAssignments.mpr ⟨z, hz, .inl rfl⟩)
    | frozenText other chunkId =>
        refine congrArg (Option.map _) (hkept other chunkId ?_)
        rintro z hz ⟨rfl, rfl⟩
        exact hnone _ (mem_frozenAssignments.mpr ⟨z, hz, .inr (.inl rfl)⟩)
    | frozenMetadata other chunkId =>
        refine congrArg (Option.map _) (hkept other chunkId ?_)
        rintro z hz ⟨rfl, rfl⟩
        exact hnone _ (mem_frozenAssignments.mpr ⟨z, hz, .inr (.inr rfl)⟩)
    | _ => rfl

end PortRag.Service
