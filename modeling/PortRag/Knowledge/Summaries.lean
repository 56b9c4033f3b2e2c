import PortRag.Knowledge.Membership

set_option autoImplicit false

/-!
# The record of a creation and the summary of its revision

`create` returns what it has just selected; `get` counts anew and sorts.  Right after the
creation the two say the same.  A creation is refused for a taken identifier, for documents
that are not there, or because a row cannot be frozen, and for nothing else.
-/

namespace PortRag.Knowledge

open PortRag.Foundation PortRag.Db PortRag.Security PortRag.Ingest PortRag.Search

/-- `list(dict.fromkeys(xs))` keeps the order and drops what comes again. -/
theorem eraseDups_spec {α : Type} [DecidableEq α] (xs : List α) :
    xs.eraseDups.Sublist xs ∧ xs.eraseDups.Nodup := by
  match xs with
  | [] => exact ⟨List.Sublist.refl _, List.nodup_nil⟩
  | x :: rest =>
      obtain ⟨hsub, hnodup⟩ := eraseDups_spec (rest.filter (fun b => !b == x))
      rw [List.eraseDups_cons]
      refine ⟨(hsub.trans List.filter_sublist).cons_cons x, ?_⟩
      refine List.nodup_cons.mpr ⟨fun hmem => ?_, hnodup⟩
      have hkept := (List.mem_filter.mp (hsub.mem hmem)).2
      simp at hkept
termination_by xs.length
decreasing_by exact Nat.lt_succ_of_le (List.length_filter_le _ _)

section Order

variable {db : Database} {userId : Uuid} {selected : Option (List Uuid)}

theorem sourceRows_pairwise (db : Database) (userId : Uuid) (selected : Option (List Uuid)) :
    (sourceRows db userId selected).Pairwise (fun a b => a.documentId ≤ b.documentId) := by
  have hsorted : (sourceRows db userId selected).Pairwise (fun a b => sourceOrder a b = true) := by
    refine List.pairwise_mergeSort ?_ ?_ _
    · intro a b c hab hbc
      simp only [sourceOrder, Bool.or_eq_true, Bool.and_eq_true, decide_eq_true_eq] at *
      grind
    · intro a b
      simp only [sourceOrder, Bool.or_eq_true, Bool.and_eq_true, decide_eq_true_eq]
      grind
  refine hsorted.imp ?_
  intro a b hab
  simp only [sourceOrder, Bool.or_eq_true, Bool.and_eq_true, decide_eq_true_eq] at hab
  rcases hab with hlt | ⟨hsame, -⟩
  · exact le_of_lt hlt
  · exact le_of_eq hsame

/-- The live members come in the order of their identifiers, each once. -/
theorem liveIds_spec (db : Database) (userId : Uuid) (selected : Option (List Uuid)) :
    (liveIds (sourceRows db userId selected)).Pairwise (· ≤ ·) ∧
      (liveIds (sourceRows db userId selected)).Nodup := by
  obtain ⟨hsub, hnodup⟩ := eraseDups_spec
    (((sourceRows db userId selected).filter (fun r => r.webpageDocumentId ≠ none)).map
      (·.documentId))
  refine ⟨List.Pairwise.sublist hsub ?_, hnodup⟩
  exact List.pairwise_map.mpr ((sourceRows_pairwise db userId selected).sublist List.filter_sublist)

/-- The live members are the selected webpage documents that have a chunk. -/
theorem liveIds_perm_filter (db : Database) (userId : Uuid) (selected : Option (List Uuid)) :
    (liveIds (sourceRows db userId selected)).Perm
      (((selectedWebpages db userId selected).filter (fun d => !(db.chunksOf d.id).isEmpty)).map
        (·.id)) := by
  have hdocuments : (((selectedWebpages db userId selected).filter
      (fun d => !(db.chunksOf d.id).isEmpty)).map (·.id)).Nodup :=
    ((List.filter_sublist.trans (List.filter_sublist.trans List.filter_sublist)).map _).nodup
      db.documents.keys_nodup
  refine (List.perm_ext_iff_of_nodup (liveIds_spec db userId selected).2 hdocuments).mpr ?_
  intro id
  rw [mem_liveIds, List.mem_map]
  constructor
  · rintro ⟨d, hd, rfl, hne⟩
    exact ⟨d, List.mem_filter.mpr ⟨hd, by simpa using hne⟩, rfl⟩
  · rintro ⟨d, hd, rfl⟩
    obtain ⟨hmem, hne⟩ := List.mem_filter.mp hd
    exact ⟨d, hmem, rfl, by simpa using hne⟩

end Order

section Record

variable {pd : PrivateData} {uuid4 : Nat → Uuid} {revisionId userId : Uuid} {now : Time}
  {selected : Option (List Uuid)} {record : KnowledgeRevisionRecord} {db db' : Database}

/-- The chunks that `_summary` counts for a live member are those it had for the creation. -/
theorem Created.memberChunks_eq
    (h : Created pd uuid4 revisionId userId now selected record db db') {d : Document}
    (hd : d ∈ selectedWebpages db userId selected) :
    memberChunks db' userId ⟨revisionId, d.id⟩ = db.chunksOf d.id := by
  obtain ⟨hmem, hselectable, hpage⟩ := mem_selectedWebpages.mp hd
  obtain ⟨page, hpage⟩ := Option.isSome_iff_exists.mp hpage
  have hdocument : db'.document? d.id = some d := by
    rw [Database.document?, h.documents]
    exact Table.find?_of_mem hmem
  have hwebpage : db'.webpage? d.id = some page := by
    rw [Database.webpage?, h.webpages]
    exact hpage
  have hchunks : db'.chunksOf d.id = db.chunksOf d.id := by
    rw [Database.chunksOf, h.chunks, Database.chunksOf]
  simp only [selectable, Bool.and_eq_true, decide_eq_true_eq] at hselectable
  rw [memberChunks, hdocument, hwebpage]
  exact (if_pos hselectable.1).trans hchunks

/-- The live members have as many chunks as the query yields rows of webpage documents. -/
theorem Created.length_members
    (h : Created pd uuid4 revisionId userId now selected record db db') :
    ((db'.membersOf revisionId).flatMap (memberChunks db' userId)).length
      = ((sourceRows db userId selected).filter (fun r => r.webpageDocumentId ≠ none)).length := by
  have hdropped : ∀ pages : List Document,
      (pages.filter (fun d => !(db.chunksOf d.id).isEmpty)).flatMap (fun d => db.chunksOf d.id)
        = pages.flatMap (fun d => db.chunksOf d.id) := by
    intro pages
    induction pages with
    | nil => rfl
    | cons d rest ih =>
        rw [List.filter_cons, List.flatMap_cons]
        split
        · rw [List.flatMap_cons, ih]
        · next hkept =>
            have hempty : db.chunksOf d.id = [] := by simpa using hkept
            rw [ih, hempty, List.nil_append]
  rw [(webpageRows_perm db userId selected).length_eq, h.members, List.flatMap_map,
    ((liveIds_perm_filter db userId selected).flatMap_right _).length_eq, List.flatMap_map]
  have hmembers : ((selectedWebpages db userId selected).filter
      (fun d => !(db.chunksOf d.id).isEmpty)).flatMap
        (fun d => memberChunks db' userId ⟨revisionId, d.id⟩)
      = ((selectedWebpages db userId selected).filter
        (fun d => !(db.chunksOf d.id).isEmpty)).flatMap (fun d => db.chunksOf d.id) :=
    List.flatMap_congr (fun d hd => h.memberChunks_eq (List.mem_of_mem_filter hd))
  rw [hmembers, hdropped, List.length_flatMap, List.length_flatMap]
  simp only [List.length_map]

/-- Right after a creation, its record is the summary of the revision. -/
theorem summary_of_created
    (h : createTransaction pd uuid4 revisionId now db userId selected = .ok (record, db')) :
    summary db' ⟨revisionId, userId, now⟩ = record := by
  have hcreated := created_of_ok h
  obtain ⟨_, _, _, -, -, -, -, -, rfl⟩ := createTransaction_ok h
  have hfrozen : (db'.frozenOf revisionId).length
      = ((sourceRows db userId selected).filter (fun r => r.webpageDocumentId = none)).length := by
    rw [← (mapM_eq_ok.mp hcreated.frozen).length_eq, List.length_zipIdx, fileRows]
  have hlive : ((db'.membersOf revisionId).map (·.documentId)).mergeSort (· ≤ ·)
      = liveIds (sourceRows db userId selected) := by
    rw [hcreated.members, List.map_map]
    refine (congrArg (fun ids : List Uuid => ids.mergeSort (fun a b => a ≤ b))
      (List.map_id _)).trans ?_
    refine List.mergeSort_of_pairwise ?_
    exact (liveIds_spec db userId selected).1.imp (fun hab => decide_eq_true hab)
  rw [summary, hfrozen, hcreated.length_members, hlive, List.length_eq_length_filter_add
    (fun r : SourceRow => decide (r.webpageDocumentId = none))
    (l := sourceRows db userId selected)]
  simp only [decide_not]

end Record

/-! ## When a creation succeeds -/

section Success

variable {pd : PrivateData} {uuid4 : Nat → Uuid} {revisionId userId : Uuid} {now : Time}
  {selected : Option (List Uuid)} {db : Database}

/-- The frozen rows of a creation, if each can be read and encrypted again. -/
def freeze (pd : PrivateData) (uuid4 : Nat → Uuid) (revisionId userId : Uuid)
    (selected : Option (List Uuid)) (db : Database) : Except Exc (List KnowledgeRevisionChunk) :=
  (fileRows (sourceRows db userId selected)).zipIdx.mapM
    (fun z => frozenRow pd userId revisionId (uuid4 z.2) z.1)

/-- The cells that a creation reads of a chunk of a file document can be read under the bindings of
the document, and what is read can be encrypted under those of the revision: the document's name,
the chunk's text and its metadata. -/
structure Refreezable (pd : PrivateData) (userId revisionId : Uuid) (d : Document)
    (c : DocumentChunk) : Prop where
  name : ∃ plain cell, pd.readText d.name ⟨userId.str, d.id.str, "document:name"⟩ = .ok plain ∧
    pd.encryptText plain ⟨userId.str, revisionId.str, frozenNameField d.id⟩ = .ok cell
  text : ∃ plain cell, pd.readText c.text ⟨userId.str, d.id.str, chunkTextField c.seq⟩ = .ok plain ∧
    pd.encryptText plain ⟨userId.str, revisionId.str, frozenTextField d.id c.seq⟩ = .ok cell
  metadata : ∃ plain cell,
    pd.readJson c.metadata ⟨userId.str, d.id.str, chunkMetadataField c.seq⟩ = .ok plain ∧
      pd.encryptJson plain ⟨userId.str, revisionId.str, frozenMetadataField d.id c.seq⟩ = .ok cell

/-- One row is frozen exactly when its cells can be read and encrypted again. -/
theorem frozenRow_ok_iff {rowId : Uuid} {d : Document} {c : DocumentChunk} :
    (∃ row, frozenRow pd userId revisionId rowId (sourceRow db d c) = .ok row) ↔
      Refreezable pd userId revisionId d c := by
  constructor
  · rintro ⟨row, h⟩
    obtain ⟨plainName, hplainName, h⟩ := bind_eq_ok.mp h
    obtain ⟨name, hname, h⟩ := bind_eq_ok.mp h
    obtain ⟨plainText, hplainText, h⟩ := bind_eq_ok.mp h
    obtain ⟨text, htext, h⟩ := bind_eq_ok.mp h
    obtain ⟨plainMetadata, hplainMetadata, h⟩ := bind_eq_ok.mp h
    obtain ⟨metadata, hmetadata, -⟩ := bind_eq_ok.mp h
    exact ⟨⟨plainName, name, hplainName, hname⟩, ⟨plainText, text, hplainText, htext⟩,
      ⟨plainMetadata, metadata, hplainMetadata, hmetadata⟩⟩
  · rintro ⟨⟨plainName, name, hplainName, hname⟩, ⟨plainText, text, hplainText, htext⟩,
      ⟨plainMetadata, metadata, hplainMetadata, hmetadata⟩⟩
    exact ⟨_, bind_eq_ok.mpr ⟨plainName, hplainName, bind_eq_ok.mpr ⟨name, hname,
      bind_eq_ok.mpr ⟨plainText, hplainText, bind_eq_ok.mpr ⟨text, htext,
        bind_eq_ok.mpr ⟨plainMetadata, hplainMetadata,
          bind_eq_ok.mpr ⟨metadata, hmetadata, rfl⟩⟩⟩⟩⟩⟩⟩

/-- The rows of a creation are frozen exactly when the cells of every chunk of the selected file
documents can be read and encrypted again. -/
theorem freeze_ok_iff :
    (∃ frozen, freeze pd uuid4 revisionId userId selected db = .ok frozen) ↔
      ∀ d ∈ selectedFiles db userId selected, ∀ c ∈ db.chunksOf d.id,
        Refreezable pd userId revisionId d c := by
  have hrows : ∀ row, row ∈ fileRows (sourceRows db userId selected) ↔
      ∃ d ∈ selectedFiles db userId selected, ∃ c ∈ db.chunksOf d.id, sourceRow db d c = row := by
    intro row
    rw [(fileRows_perm db userId selected).mem_iff, List.mem_flatMap]
    simp only [List.mem_map]
  constructor
  · rintro ⟨frozen, h⟩ d hd c hc
    have hmem := (hrows _).mpr ⟨d, hd, c, hc, rfl⟩
    obtain ⟨i, hi, hrow⟩ := List.getElem_of_mem hmem
    have hzip : (sourceRow db d c, i) ∈ (fileRows (sourceRows db userId selected)).zipIdx := by
      rw [List.mem_zipIdx_iff_getElem?, List.getElem?_eq_getElem hi, hrow]
    obtain ⟨frozenOne, -, hok⟩ := Forall₂.exists_left (mapM_eq_ok.mp h).flip _ hzip
    exact frozenRow_ok_iff.mp ⟨frozenOne, hok⟩
  · intro h
    refine exists_mapM_ok ?_
    rintro ⟨row, i⟩ hz
    obtain ⟨d, hd, c, hc, rfl⟩ := (hrows row).mp (List.fst_mem_of_mem_zipIdx hz)
    exact frozenRow_ok_iff.mpr (h d hd c hc)

/-- The identifiers that `uuid4` gives the frozen rows are new and different. -/
structure FreshRows (uuid4 : Nat → Uuid) (userId : Uuid) (selected : Option (List Uuid))
    (db : Database) : Prop where
  distinct : ∀ i j, i < (fileRows (sourceRows db userId selected)).length →
    j < (fileRows (sourceRows db userId selected)).length → uuid4 i = uuid4 j → i = j
  unused : ∀ i, i < (fileRows (sourceRows db userId selected)).length →
    db.revisionChunks.find? (uuid4 i) = none

theorem frozenRow_id {rowId : Uuid} {row : SourceRow} {c : KnowledgeRevisionChunk}
    (h : frozenRow pd userId revisionId rowId row = .ok c) : c.id = rowId := by
  obtain ⟨_, _, h⟩ := bind_eq_ok.mp h
  obtain ⟨_, _, h⟩ := bind_eq_ok.mp h
  obtain ⟨_, _, h⟩ := bind_eq_ok.mp h
  obtain ⟨_, _, h⟩ := bind_eq_ok.mp h
  obtain ⟨_, _, h⟩ := bind_eq_ok.mp h
  obtain ⟨_, _, h⟩ := bind_eq_ok.mp h
  rw [← pure_eq_ok.mp h]

/-- The identifiers of the frozen rows, in order. -/
theorem freeze_ids {frozen : List KnowledgeRevisionChunk}
    (h : freeze pd uuid4 revisionId userId selected db = .ok frozen) :
    frozen.map KnowledgeRevisionChunk.id
      = (List.range (fileRows (sourceRows db userId selected)).length).map uuid4 := by
  have hrows := mapM_eq_ok.mp h
  apply List.ext_getElem
  · rw [List.length_map, List.length_map, List.length_range, ← hrows.length_eq,
      List.length_zipIdx]
  · intro i hi hi'
    rw [List.length_map] at hi
    have hi'' : i < (fileRows (sourceRows db userId selected)).zipIdx.length :=
      hrows.length_eq ▸ hi
    have hid := frozenRow_id (hrows.get hi'' hi)
    rw [List.getElem_map, List.getElem_map, List.getElem_range]
    simpa using hid

theorem exists_insertRevision {r : KnowledgeRevision} (h : db.revisions.find? r.id = none) :
    ∃ db', db.insertRevision r = .ok db' := by
  unfold Database.insertRevision
  split
  · next hnone =>
      obtain ⟨t, ht⟩ := Table.insert?_isSome h
      rw [hnone] at ht
      cases ht
  · exact ⟨_, rfl⟩

theorem exists_insertRevisionChunks {rows : List KnowledgeRevisionChunk}
    (hnodup : (rows.map KnowledgeRevisionChunk.id).Nodup)
    (hnew : ∀ c ∈ rows, db.revisionChunks.find? c.id = none)
    (hfk : ∀ c ∈ rows, ∃ r ∈ db.revisions.rows, r.id = c.revisionId) :
    ∃ db', db.insertRevisionChunks rows = .ok db' := by
  unfold Database.insertRevisionChunks
  split
  · next hnone =>
      obtain ⟨t, ht⟩ := Table.insertAll?_isSome hnodup hnew
      rw [hnone] at ht
      cases ht
  · rw [dif_pos hfk]
    exact ⟨_, rfl⟩

theorem exists_insertRevisionWebpages {rows : List KnowledgeRevisionWebpage}
    (hnodup : (rows.map KnowledgeRevisionWebpage.key).Nodup)
    (hnew : ∀ m ∈ rows, db.revisionWebpages.find? m.key = none)
    (hadmitted : ∀ m ∈ rows, db.memberAdmitted m = true)
    (hfk : ∀ m ∈ rows, ∃ r ∈ db.revisions.rows, r.id = m.revisionId) :
    ∃ db', db.insertRevisionWebpages rows = .ok db' := by
  have hall : (rows.any fun m => !db.memberAdmitted m) = false := by
    rw [List.any_eq_false]
    intro m hm
    simp [hadmitted m hm]
  rw [Database.insertRevisionWebpages, if_neg (by simp [hall])]
  split
  · next hnone =>
      obtain ⟨t, ht⟩ := Table.insertAll?_isSome hnodup hnew
      rw [hnone] at ht
      cases ht
  · rw [dif_pos hfk]
    exact ⟨_, rfl⟩

/-- A revision that is not there has no members. -/
theorem find?_member_of_free (hfree : db.revisions.find? revisionId = none) (id : Uuid) :
    db.revisionWebpages.find? (revisionId, id) = none := by
  rw [Table.find?_eq_none_iff]
  intro m hm hkey
  obtain ⟨r, hr, hid⟩ := db.revisionWebpages_fk m hm
  exact Table.find?_eq_none_iff.mp hfree r hr (hid.trans (Prod.mk.inj hkey).1)

/-- The trigger on the membership admits a selected webpage document. -/
theorem memberAdmitted_of_selected {before : Database} {d : Document}
    (hd : d ∈ selectedWebpages before userId selected)
    (hrevision : db.revisions.find? revisionId = some ⟨revisionId, userId, now⟩)
    (hdocument : db.document? d.id = before.document? d.id)
    (hwebpage : db.webpage? d.id = before.webpage? d.id) :
    db.memberAdmitted ⟨revisionId, d.id⟩ = true := by
  obtain ⟨hmem, hselectable, hpage⟩ := mem_selectedWebpages.mp hd
  simp only [selectable, Bool.and_eq_true, decide_eq_true_eq] at hselectable
  have hfound : before.document? d.id = some d := Table.find?_of_mem hmem
  rw [Database.memberAdmitted, hrevision, hdocument, hwebpage, hfound, hpage]
  simp [hselectable.1.1, hselectable.1.2]

/-- With a free identifier, documents that are there and rows that freeze, a creation
succeeds. -/
theorem createTransaction_of_free (hactive : userId ∉ db.erasedOwners)
    (hfree : db.revisions.find? revisionId = none)
    (hfound : allFound selected (sourceRows db userId selected) = true)
    (hfresh : FreshRows uuid4 userId selected db) {frozen : List KnowledgeRevisionChunk}
    (hfrozen : freeze pd uuid4 revisionId userId selected db = .ok frozen) :
    ∃ record db', createTransaction pd uuid4 revisionId now db userId selected
      = .ok (record, db') := by
  obtain ⟨withRevision, hrevision⟩ :=
    exists_insertRevision (r := ⟨revisionId, userId, now⟩) hfree
  have hthere := Database.find?_of_insertRevision hrevision
  have hbelong : ∀ c ∈ frozen, c.revisionId = revisionId := frozenRows_revisionId hfrozen
  have hids := freeze_ids hfrozen
  obtain ⟨withChunks, hchunks⟩ : ∃ db', withRevision.insertRevisionChunks frozen = .ok db' := by
    obtain ⟨-, t, ht, rfl⟩ := Database.insertRevision_ok hrevision
    refine exists_insertRevisionChunks ?_ ?_ ?_
    · rw [hids]
      refine List.Nodup.map_on ?_ List.nodup_range
      intro i hi j hj
      exact hfresh.distinct i j (List.mem_range.mp hi) (List.mem_range.mp hj)
    · intro c hc
      have hid : c.id ∈ frozen.map KnowledgeRevisionChunk.id := List.mem_map_of_mem hc
      rw [hids] at hid
      obtain ⟨i, hi, hsame⟩ := List.mem_map.mp hid
      rw [← hsame]
      exact hfresh.unused i (List.mem_range.mp hi)
    · intro c hc
      exact ⟨_, Table.find?_mem hthere, (hbelong c hc).symm⟩
  obtain ⟨withMembers, hmembers⟩ : ∃ db', withChunks.insertRevisionWebpages
      ((liveIds (sourceRows db userId selected)).map (fun id => ⟨revisionId, id⟩)) = .ok db' := by
    obtain ⟨-, t, ht, rfl⟩ := Database.insertRevision_ok hrevision
    obtain ⟨u, hu, hfk, rfl⟩ := Database.insertRevisionChunks_ok hchunks
    refine exists_insertRevisionWebpages ?_ ?_ ?_ ?_
    · rw [List.map_map]
      exact (liveIds_spec db userId selected).2.map (fun a b hab => (Prod.mk.inj hab).2)
    · intro m hm
      obtain ⟨id, -, rfl⟩ := List.mem_map.mp hm
      exact find?_member_of_free hfree id
    · intro m hm
      obtain ⟨id, hid, rfl⟩ := List.mem_map.mp hm
      obtain ⟨d, hd, rfl, -⟩ := mem_liveIds.mp hid
      exact memberAdmitted_of_selected hd hthere rfl rfl
    · intro m hm
      obtain ⟨id, -, rfl⟩ := List.mem_map.mp hm
      exact ⟨_, Table.find?_mem hthere, rfl⟩
  refine ⟨⟨revisionId, userId, (sourceRows db userId selected).length, now,
    liveIds (sourceRows db userId selected)⟩, withMembers, ?_⟩
  rw [createTransaction, lockActiveOwner, if_neg hactive]
  change (if ¬ allFound selected (sourceRows db userId selected) = true then _
    else (db.insertRevision ⟨revisionId, userId, now⟩).bind _) = _
  rw [if_neg (by simp [hfound]), hrevision]
  change (freeze pd uuid4 revisionId userId selected db).bind _ = _
  rw [hfrozen]
  change (withRevision.insertRevisionChunks frozen).bind _ = _
  rw [hchunks]
  change (withChunks.insertRevisionWebpages _).bind _ = _
  rw [hmembers]
  rfl

end Success

end PortRag.Knowledge
