import PortRag.Service.WritePaths

set_option autoImplicit false

/-!
# The creation of revisions

`create` reads under the bindings of the documents and writes under those of the revision;
both are the bindings that `reveal` opens.
-/

namespace PortRag.Service

open PortRag.Foundation PortRag.Db PortRag.Security PortRag.Ingest PortRag.Knowledge

variable {opens : Opens} {cipher : PrivateDataCipher} {db : Database}

/-- A source row in the clear. -/
def revealSource (opens : Opens) (owner : String) (row : SourceRow) : SourceRow :=
  { row with
    documentName := revealText opens row.documentName
      ⟨owner, row.documentId.str, "document:name"⟩
    text := revealText opens row.text ⟨owner, row.documentId.str, chunkTextField row.seq⟩
    metadata := revealJson opens row.metadata
      ⟨owner, row.documentId.str, chunkMetadataField row.seq⟩ }

/-- A source row whose private columns stand for something. -/
structure SourceSealed (opens : Opens) (owner : String) (row : SourceRow) : Prop where
  documentName : TextSealed opens row.documentName ⟨owner, row.documentId.str, "document:name"⟩
  text : TextSealed opens row.text ⟨owner, row.documentId.str, chunkTextField row.seq⟩
  metadata : JsonSealed opens row.metadata ⟨owner, row.documentId.str, chunkMetadataField row.seq⟩

/-- A document that `create` selects. -/
theorem selectable_owner {userId : Uuid} {selected : Option (List Uuid)} {d : Document}
    (h : selectable userId selected d = true) : d.userId = userId := by
  simp only [selectable, Bool.and_eq_true, decide_eq_true_eq] at h
  exact h.1.1

theorem sourceRow_reveal {d : Document} {c : DocumentChunk} (hid : c.documentId = d.id) :
    sourceRow (db.plaintext opens) (d.reveal opens) (c.reveal opens d.userId.str) =
      revealSource opens d.userId.str (sourceRow db d c) := by
  have hpage : ((db.plaintext opens).webpage? d.id).map (·.documentId) =
      (db.webpage? d.id).map (·.documentId) := by
    rw [Database.webpage?_plaintext, Option.map_map]
    rfl
  simp only [sourceRow, Document.reveal_id, hpage]
  simp [revealSource, Document.reveal, DocumentChunk.reveal, Document.binding, hid]

theorem joinedRows_plaintext (db : Database) (userId : Uuid) (selected : Option (List Uuid)) :
    joinedRows (db.plaintext opens) userId selected =
      (joinedRows db userId selected).map (revealSource opens userId.str) := by
  unfold joinedRows
  rw [Database.plaintext_documents, Table.rewrite_rows, List.filter_map, List.flatMap_map,
    List.map_flatMap]
  apply List.flatMap_congr
  intro d hd
  obtain ⟨hmem, hkeep⟩ := List.mem_filter.mp hd
  have hfind : db.document? d.id = some d := Table.find?_of_mem hmem
  rw [← selectable_owner hkeep, Document.reveal_id, Database.chunksOf_plaintext,
    Database.documentOwner_of hfind, List.map_map, List.map_map]
  apply List.map_congr_left
  intro c hc
  exact sourceRow_reveal (Database.mem_chunksOf.mp hc).2

theorem sourceRows_plaintext (db : Database) (userId : Uuid) (selected : Option (List Uuid)) :
    sourceRows (db.plaintext opens) userId selected =
      (sourceRows db userId selected).map (revealSource opens userId.str) := by
  unfold sourceRows
  rw [joinedRows_plaintext]
  refine (List.map_mergeSort ?_).symm
  exact fun a _ b _ => rfl

theorem sourceSealed_of_mem (h : db.Sealed opens) {userId : Uuid} {selected : Option (List Uuid)}
    {row : SourceRow} (hrow : row ∈ sourceRows db userId selected) :
    SourceSealed opens userId.str row := by
  obtain ⟨d, hd, hrow⟩ := List.mem_flatMap.mp (List.mem_mergeSort.mp hrow)
  obtain ⟨hmem, hkeep⟩ := List.mem_filter.mp hd
  obtain ⟨c, hc, rfl⟩ := List.mem_map.mp hrow
  have hfind : db.document? d.id = some d := Table.find?_of_mem hmem
  obtain ⟨hsealed, hid⟩ := sealed_chunk h hfind hc
  rw [← selectable_owner hkeep]
  have hdocument := h.document hfind
  refine ⟨hdocument.name, ?_, ?_⟩
  · simpa [sourceRow, hid] using hsealed.text
  · simpa [sourceRow, hid] using hsealed.metadata

/-- One frozen row in the clear. -/
theorem frozenRow_follows (huses : cipher.Uses opens) {userId revisionId rowId : Uuid}
    {row : SourceRow} (hrow : SourceSealed opens userId.str row) :
    Follows (cipher.Fails opens)
      (fun c c' => (c.Sealed opens userId.str ∧ c.revisionId = revisionId) ∧
        c' = c.reveal opens userId.str)
      (frozenRow cipher.privateData userId revisionId rowId row)
      (frozenRow .plain userId revisionId rowId (revealSource opens userId.str row)) := by
  refine .bind (follows_of_read (readText_follows huses hrow.documentName)) ?_
  rintro plainName _ rfl
  refine .bind (follows_of_write (encryptText_follows huses plainName)) ?_
  rintro name _ ⟨rfl, hname⟩
  refine .bind (follows_of_read (readText_follows huses hrow.text)) ?_
  rintro plainText _ rfl
  refine .bind (follows_of_write (encryptText_follows huses plainText)) ?_
  rintro text _ ⟨rfl, htext⟩
  refine .bind (follows_of_read (readJson_follows huses hrow.metadata)) ?_
  rintro plainMetadata _ rfl
  refine .bind (follows_of_write (encryptJson_follows huses plainMetadata)) ?_
  rintro metadata _ ⟨rfl, hmetadata⟩
  refine .pure ⟨⟨⟨hname.reveal, htext.reveal, hmetadata.reveal⟩, rfl⟩, ?_⟩
  rw [← revealText_of_stands hname, ← revealText_of_stands htext, ← revealJson_of_stands hmetadata]
  rfl

/-! ## What does not look at private columns -/

theorem fileRows_map (owner : String) (rows : List SourceRow) :
    fileRows (rows.map (revealSource opens owner)) =
      (fileRows rows).map (revealSource opens owner) := by
  unfold fileRows
  rw [List.filter_map]
  rfl

theorem liveIds_map (owner : String) (rows : List SourceRow) :
    liveIds (rows.map (revealSource opens owner)) = liveIds rows := by
  unfold liveIds
  rw [List.filter_map, List.map_map]
  rfl

theorem allFound_map (owner : String) (selected : Option (List Uuid)) (rows : List SourceRow) :
    allFound selected (rows.map (revealSource opens owner)) = allFound selected rows := by
  have hany : ∀ id, (rows.map (revealSource opens owner)).any (fun r => r.documentId = id) =
      rows.any (fun r => r.documentId = id) := by
    intro id
    rw [List.any_map]
    rfl
  simp only [allFound, hany]

/-- The frozen rows of a revision in the clear. -/
theorem frozenRows_follows (huses : cipher.Uses opens) (h : db.Sealed opens)
    {userId : Uuid} {selected : Option (List Uuid)} (revisionId : Uuid) (uuid4 : Nat → Uuid) :
    Follows (cipher.Fails opens)
      (fun rows rows' => (∀ c ∈ rows, c.Sealed opens userId.str ∧ c.revisionId = revisionId) ∧
        rows' = rows.map (fun c => c.reveal opens userId.str))
      ((fileRows (sourceRows db userId selected)).zipIdx.mapM
        (fun z => frozenRow cipher.privateData userId revisionId (uuid4 z.2) z.1))
      (((fileRows (sourceRows db userId selected)).map (revealSource opens userId.str)).zipIdx.mapM
        (fun z => frozenRow .plain userId revisionId (uuid4 z.2) z.1)) := by
  rw [List.zipIdx_map]
  refine (Follows.mapM_map ?_).mono (fun _ he => he) (fun _ _ hlist => eq_map_of_forall₂ hlist)
  intro z hz
  have hmem := List.mem_of_mem_filter (List.fst_mem_of_mem_zipIdx hz)
  exact frozenRow_follows huses (sourceSealed_of_mem h hmem)

/-- The creation of a revision follows itself in the clear: the selection compares no encrypted
column, and each frozen value is decrypted under the binding of its source and encrypted under its
own. -/
theorem createTransaction_follows (huses : cipher.Uses opens) (h : db.Sealed opens)
    (uuid4 : Nat → Uuid) (revisionId : Uuid) (now : Time) (userId : Uuid)
    (selected : Option (List Uuid)) :
    Follows (cipher.Fails opens) (fun x y => x.1 = y.1 ∧ Mirrors opens x.2 y.2)
      (createTransaction cipher.privateData uuid4 revisionId now db userId selected)
      (createTransaction .plain uuid4 revisionId now (db.plaintext opens) userId selected) := by
  refine .bind (.refl (fun _ => rfl) _) ?_
  rintro _ _ -
  dsimp only
  rw [sourceRows_plaintext, fileRows_map, liveIds_map, allFound_map, List.length_map]
  split
  · exact .error _
  have hrevision : Follows (cipher.Fails opens) (Mirrors opens)
      (db.insertRevision ⟨revisionId, userId, now⟩)
      ((db.plaintext opens).insertRevision ⟨revisionId, userId, now⟩) := by
    rw [Database.insertRevision_plaintext]
    exact .of_map (fun db' hdb => ⟨h.insertRevision hdb, rfl⟩)
  refine .bind hrevision.and_ok ?_
  rintro withRevision _ ⟨⟨hsealed, rfl⟩, hinserted⟩
  have howner : withRevision.revisionOwner revisionId = userId.str :=
    Database.revisionOwner_of (Database.find?_of_insertRevision hinserted)
  refine .bind (frozenRows_follows huses h revisionId uuid4) ?_
  rintro frozen _ ⟨hfrozen, rfl⟩
  have hrows : ∀ c ∈ frozen, withRevision.revisionOwner c.revisionId = userId.str := by
    intro c hc
    rw [(hfrozen c hc).2, howner]
  have hreveal : Database.revealFrozen opens withRevision frozen =
      frozen.map (fun c => c.reveal opens userId.str) := by
    apply List.map_congr_left
    intro c hc
    rw [hrows c hc]
  have hchunks : Follows (cipher.Fails opens) (Mirrors opens)
      (withRevision.insertRevisionChunks frozen)
      ((withRevision.plaintext opens).insertRevisionChunks
        (frozen.map (fun c => c.reveal opens userId.str))) := by
    rw [← hreveal, Database.insertRevisionChunks_plaintext]
    refine .of_map (fun db' hdb => ⟨hsealed.insertRevisionChunks ?_ hdb, rfl⟩)
    intro c hc
    rw [hrows c hc]
    exact (hfrozen c hc).1
  refine .bind hchunks ?_
  rintro withChunks _ ⟨hsealed', rfl⟩
  rw [Database.insertRevisionWebpages_plaintext]
  have hmembers : ∀ db', withChunks.insertRevisionWebpages ((liveIds (sourceRows db userId
      selected)).map (fun id => ⟨revisionId, id⟩)) = .ok db' →
      Mirrors opens db' (db'.plaintext opens) :=
    fun db' hdb => ⟨hsealed'.insertRevisionWebpages hdb, rfl⟩
  refine .bind (.of_map hmembers) ?_
  rintro withMembers _ hmirrors
  exact .pure ⟨rfl, hmirrors⟩

theorem createRevision_imitates (huses : cipher.Uses opens) (h : db.Sealed opens)
    (uuid4 : Nat → Uuid) (revisionId : Uuid) (now : Time) (userId : Uuid)
    (selected : Option (List Uuid)) :
    Imitates opens cipher db
      (Knowledge.create cipher.privateData uuid4 revisionId now db userId selected)
      (Knowledge.create .plain uuid4 revisionId now (db.plaintext opens) userId selected) :=
  .ofTransaction h (createTransaction_follows huses h uuid4 revisionId now userId selected)

end PortRag.Service
