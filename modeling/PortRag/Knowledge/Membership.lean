import PortRag.Db.Owners
import PortRag.Search.Repository
import PortRag.Security.Plaintext

set_option autoImplicit false

/-!
# What a revision consists of

`selectedFiles` and `selectedWebpages` are the documents that `create` selects, by kind.  Its
joined query yields the chunks of both; it freezes the first and records the second.
`currentCandidates` is what the live branch of a search should rank: the chunks that
documents have now.
-/

namespace PortRag.Knowledge

open PortRag.Foundation PortRag.Db PortRag.Security PortRag.Ingest PortRag.Search

/-- The selected file documents. -/
def selectedFiles (db : Database) (userId : Uuid) (selected : Option (List Uuid)) :
    List Document :=
  (db.documents.rows.filter (selectable userId selected)).filter
    (fun d => (db.webpage? d.id).isNone)

/-- The selected webpage documents. -/
def selectedWebpages (db : Database) (userId : Uuid) (selected : Option (List Uuid)) :
    List Document :=
  (db.documents.rows.filter (selectable userId selected)).filter
    (fun d => (db.webpage? d.id).isSome)

/-- The chunks of these documents, as a search ranks them. -/
def chunkCandidates (db : Database) (documents : List Document) : List CandidateRow :=
  documents.flatMap (fun d => (db.chunksOf d.id).map (chunkCandidate d))

/-- The chunks that one document has now, if it is there and ready. -/
def currentChunks (db : Database) (id : Uuid) : List CandidateRow :=
  match db.document? id with
  | some d => if d.status = .ready then (db.chunksOf id).map (chunkCandidate d) else []
  | none => []

/-- The chunks that these documents have now, as far as they are there and ready. -/
def currentCandidates (db : Database) (ids : List Uuid) : List CandidateRow :=
  ids.flatMap (currentChunks db)

/-- What a candidate shows: document, name, text, metadata, place and embedding. -/
def shown (row : CandidateRow) : Uuid × String × String × Json × Int × Embedding :=
  (row.documentId, row.documentName, row.text, row.metadata, row.seq, row.embedding)

section Selection

variable {db : Database} {userId : Uuid} {selected : Option (List Uuid)}

theorem mem_joinedRows {r : SourceRow} (h : r ∈ joinedRows db userId selected) :
    ∃ d c, d ∈ db.documents.rows ∧ selectable userId selected d = true ∧
      c ∈ db.chunksOf d.id ∧ r = sourceRow db d c := by
  obtain ⟨d, hd, hr⟩ := List.mem_flatMap.mp h
  obtain ⟨hmem, hkeep⟩ := List.mem_filter.mp hd
  obtain ⟨c, hc, rfl⟩ := List.mem_map.mp hr
  exact ⟨d, c, hmem, hkeep, hc, rfl⟩

/-- The rows of one kind are those of the documents of that kind. -/
theorem filter_joinedRows (p : SourceRow → Bool) (q : Document → Bool)
    (h : ∀ d c, p (sourceRow db d c) = q d) :
    (joinedRows db userId selected).filter p =
      ((db.documents.rows.filter (selectable userId selected)).filter q).flatMap
        (fun d => (db.chunksOf d.id).map (sourceRow db d)) := by
  unfold joinedRows
  induction db.documents.rows.filter (selectable userId selected) with
  | nil => rfl
  | cons d rest ih =>
      rw [List.flatMap_cons, List.filter_append, ih, List.filter_cons]
      have hrows : ((db.chunksOf d.id).map (sourceRow db d)).filter p =
          if q d then (db.chunksOf d.id).map (sourceRow db d) else [] := by
        split
        · next hq =>
            rw [List.filter_eq_self]
            intro r hr
            obtain ⟨c, -, rfl⟩ := List.mem_map.mp hr
            rw [h, hq]
        · next hq =>
            rw [List.filter_eq_nil_iff]
            intro r hr
            obtain ⟨c, -, rfl⟩ := List.mem_map.mp hr
            rw [h]
            exact hq
      rw [hrows]
      split
      · rw [List.flatMap_cons]
      · rfl

/-- The rows to freeze are the chunks of the selected file documents. -/
theorem fileRows_perm (db : Database) (userId : Uuid) (selected : Option (List Uuid)) :
    (fileRows (sourceRows db userId selected)).Perm
      ((selectedFiles db userId selected).flatMap
        (fun d => (db.chunksOf d.id).map (sourceRow db d))) := by
  have hkind : ∀ d c, decide ((sourceRow db d c).webpageDocumentId = none) =
      (db.webpage? d.id).isNone := by
    intro d c
    cases hp : db.webpage? d.id with
    | none => simp [sourceRow, hp]
    | some p => simp [sourceRow, hp]
  rw [selectedFiles, ← filter_joinedRows (fun r => r.webpageDocumentId = none) _ hkind]
  exact (List.mergeSort_perm _ _).filter _

/-- The other rows are the chunks of the selected webpage documents. -/
theorem webpageRows_perm (db : Database) (userId : Uuid) (selected : Option (List Uuid)) :
    ((sourceRows db userId selected).filter (fun r => r.webpageDocumentId ≠ none)).Perm
      ((selectedWebpages db userId selected).flatMap
        (fun d => (db.chunksOf d.id).map (sourceRow db d))) := by
  have hkind : ∀ d c, decide ((sourceRow db d c).webpageDocumentId ≠ none) =
      (db.webpage? d.id).isSome := by
    intro d c
    cases hp : db.webpage? d.id with
    | none => simp [sourceRow, hp]
    | some p => simp [sourceRow, hp]
  rw [selectedWebpages, ← filter_joinedRows (fun r => r.webpageDocumentId ≠ none) _ hkind]
  exact (List.mergeSort_perm _ _).filter _

theorem mem_selectedWebpages {d : Document} :
    d ∈ selectedWebpages db userId selected ↔
      d ∈ db.documents.rows ∧ selectable userId selected d = true ∧
        (db.webpage? d.id).isSome = true := by
  rw [selectedWebpages, List.mem_filter, List.mem_filter, and_assoc]

/-- A live member is a selected webpage document with a chunk. -/
theorem mem_liveIds {id : Uuid} :
    id ∈ liveIds (sourceRows db userId selected) ↔
      ∃ d ∈ selectedWebpages db userId selected, d.id = id ∧ db.chunksOf id ≠ [] := by
  rw [liveIds, List.mem_eraseDups, List.mem_map]
  have hrows := fun r => (webpageRows_perm db userId selected).mem_iff (a := r)
  constructor
  · rintro ⟨r, hr, rfl⟩
    obtain ⟨d, hd, hr⟩ := List.mem_flatMap.mp ((hrows r).mp hr)
    obtain ⟨c, hc, rfl⟩ := List.mem_map.mp hr
    exact ⟨d, hd, rfl, List.ne_nil_of_mem hc⟩
  · rintro ⟨d, hd, rfl, hne⟩
    obtain ⟨c, hc⟩ := List.exists_mem_of_ne_nil _ hne
    refine ⟨sourceRow db d c, (hrows _).mpr ?_, rfl⟩
    exact List.mem_flatMap.mpr ⟨d, hd, List.mem_map.mpr ⟨c, hc, rfl⟩⟩

/-- The rows of a document agree on its kind. -/
theorem not_liveId_of_file {r : SourceRow}
    (h : r ∈ fileRows (sourceRows db userId selected)) :
    r.documentId ∉ liveIds (sourceRows db userId selected) := by
  intro hlive
  obtain ⟨d, hd, hid, -⟩ := mem_liveIds.mp hlive
  obtain ⟨hmem, hfile⟩ := List.mem_filter.mp h
  obtain ⟨d', c, -, -, -, rfl⟩ := mem_joinedRows (List.mem_mergeSort.mp hmem)
  have hpage := (mem_selectedWebpages.mp hd).2.2
  have hid' : d.id = d'.id := hid
  have hnone : db.webpage? d'.id = none := by simpa [sourceRow] using hfile
  rw [hid', hnone] at hpage
  cases hpage

end Selection

/-! ## The state after the creation -/

/-- What an accepted creation leaves of its revision and of everything else. -/
structure Created (pd : PrivateData) (uuid4 : Nat → Uuid) (revisionId userId : Uuid) (now : Time)
    (selected : Option (List Uuid)) (record : KnowledgeRevisionRecord) (db db' : Database) :
    Prop where
  unfenced : userId ∉ db.erasedOwners
  documents : db'.documents = db.documents
  chunks : db'.chunks = db.chunks
  webpages : db'.webpages = db.webpages
  revision : db'.revisions.find? revisionId = some ⟨revisionId, userId, now⟩
  frozen : (fileRows (sourceRows db userId selected)).zipIdx.mapM
    (fun z => frozenRow pd userId revisionId (uuid4 z.2) z.1) = .ok (db'.frozenOf revisionId)
  members : db'.membersOf revisionId =
    (liveIds (sourceRows db userId selected)).map (fun id => ⟨revisionId, id⟩)
  count : record.chunkCount = (sourceRows db userId selected).length

/-- Frozen rows belong to their revision. -/
theorem frozenRows_revisionId {pd : PrivateData} {uuid4 : Nat → Uuid} {userId revisionId : Uuid}
    {rows : List SourceRow} {frozen : List KnowledgeRevisionChunk}
    (h : rows.zipIdx.mapM (fun z => frozenRow pd userId revisionId (uuid4 z.2) z.1) = .ok frozen) :
    ∀ c ∈ frozen, c.revisionId = revisionId := by
  have hfrozen := mapM_eq_ok.mp h
  intro c hc
  obtain ⟨i, hi, rfl⟩ := List.mem_iff_getElem.mp hc
  have hz := hfrozen.get (hfrozen.length_eq ▸ hi) hi
  obtain ⟨_, _, hz⟩ := bind_eq_ok.mp hz
  obtain ⟨_, _, hz⟩ := bind_eq_ok.mp hz
  obtain ⟨_, _, hz⟩ := bind_eq_ok.mp hz
  obtain ⟨_, _, hz⟩ := bind_eq_ok.mp hz
  obtain ⟨_, _, hz⟩ := bind_eq_ok.mp hz
  obtain ⟨_, _, hz⟩ := bind_eq_ok.mp hz
  have hrow := pure_eq_ok.mp hz
  exact (congrArg KnowledgeRevisionChunk.revisionId hrow).symm

/-- What a creation that commits has made: the revision, its frozen rows with the values of the
selected file documents, its webpage members, and a record that counts both. -/
theorem created_of_ok {pd : PrivateData} {uuid4 : Nat → Uuid} {revisionId userId : Uuid}
    {now : Time} {selected : Option (List Uuid)} {db db' : Database}
    {record : KnowledgeRevisionRecord}
    (h : createTransaction pd uuid4 revisionId now db userId selected = .ok (record, db')) :
    Created pd uuid4 revisionId userId now selected record db db' := by
  obtain ⟨frozen, withRevision, withChunks, hactive, hrevision, hfrozen, hchunks, hmembers,
    hrecord⟩ := createTransaction_ok h
  obtain ⟨hfresh, t, ht, rfl⟩ := Database.insertRevision_ok hrevision
  obtain ⟨u, hu, hufk, rfl⟩ := Database.insertRevisionChunks_ok hchunks
  obtain ⟨w, hw, hwfk, rfl⟩ := Database.insertRevisionWebpages_ok hmembers
  have hfrozenOf : u.rows.filter (fun c => c.revisionId = revisionId) = frozen := by
    have hold : db.revisionChunks.rows.filter (fun c => c.revisionId = revisionId) = [] :=
      Database.frozenOf_of_find?_none hfresh
    have hnew : frozen.filter (fun c => c.revisionId = revisionId) = frozen := by
      rw [List.filter_eq_self]
      intro c hc
      exact decide_eq_true (frozenRows_revisionId hfrozen c hc)
    rw [hu, List.filter_append, hnew]
    exact congrArg (· ++ frozen) hold
  have hmembersOf : w.rows.filter (fun m => m.revisionId = revisionId) =
      (liveIds (sourceRows db userId selected)).map (fun id => ⟨revisionId, id⟩) := by
    have hold : db.revisionWebpages.rows.filter (fun m => m.revisionId = revisionId) = [] :=
      Database.membersOf_of_find?_none hfresh
    rw [hw, List.filter_append, List.filter_map]
    refine (congrArg (· ++ _) hold).trans ?_
    rw [List.nil_append]
    congr 1
    rw [List.filter_eq_self]
    intro id _
    exact decide_eq_true rfl
  refine ⟨hactive, rfl, rfl, rfl, Table.find?_append_mem ht List.mem_cons_self, ?_, hmembersOf,
    congrArg KnowledgeRevisionRecord.chunkCount hrecord⟩
  rw [hfrozen]
  exact congrArg Except.ok hfrozenOf.symm

/-! ## Candidates of a revision -/

/-- The rows of a revision are the same in both states. -/
structure SameRevision (revisionId : Uuid) (db db' : Database) : Prop where
  revision : db'.revisions.find? revisionId = db.revisions.find? revisionId
  frozen : db'.frozenOf revisionId = db.frozenOf revisionId
  members : db'.membersOf revisionId = db.membersOf revisionId

theorem selectedLiveSource_eq (db : Database) (c : KnowledgeRevisionChunk) :
    selectedLiveSource db c =
      (db.membersOf c.revisionId).any (fun m => m.documentId = c.sourceDocumentId) := by
  unfold selectedLiveSource Database.membersOf
  rw [List.any_filter]
  simp only [Bool.decide_and]

/-- The frozen candidates depend on the rows of the revision only. -/
theorem SameRevision.frozenCandidates {revisionId : Uuid} {db db' : Database}
    (h : SameRevision revisionId db db') (userId : Uuid) :
    frozenCandidates db' revisionId userId = frozenCandidates db revisionId userId := by
  unfold Search.frozenCandidates
  rw [Database.ownsRevision, Database.ownsRevision, h.revision, h.frozen]
  split
  · congr 1
    apply List.filter_congr
    intro c hc
    have hrevision : c.revisionId = revisionId := of_decide_eq_true (List.mem_filter.mp hc).2
    rw [selectedLiveSource_eq, selectedLiveSource_eq, hrevision, h.members]
  · rfl

/-- A frozen row of a store in the clear: a copy. -/
def copiedRow (revisionId rowId : Uuid) (row : SourceRow) : KnowledgeRevisionChunk where
  id := rowId
  revisionId := revisionId
  sourceDocumentId := row.documentId
  documentName := row.documentName
  seq := row.seq
  text := row.text
  metadata := row.metadata
  embedding := row.embedding

/-- What a source row shows. -/
def shownSource (row : SourceRow) : Uuid × String × String × Json × Int × Embedding :=
  (row.documentId, row.documentName, row.text, row.metadata, row.seq, row.embedding)

section Created

variable {uuid4 : Nat → Uuid} {revisionId userId : Uuid} {now : Time}
  {selected : Option (List Uuid)} {record : KnowledgeRevisionRecord} {db db' : Database}

theorem Created.owns {pd : PrivateData}
    (h : Created pd uuid4 revisionId userId now selected record db db') :
    db'.ownsRevision userId revisionId = true :=
  Database.ownsRevision_iff.mpr ⟨_, h.revision, rfl⟩

theorem Created.frozen_eq (h : Created .plain uuid4 revisionId userId now selected record db db') :
    db'.frozenOf revisionId = (fileRows (sourceRows db userId selected)).zipIdx.map
      (fun z => copiedRow revisionId (uuid4 z.2) z.1) := by
  have hcopied : (fileRows (sourceRows db userId selected)).zipIdx.mapM
      (fun z => frozenRow .plain userId revisionId (uuid4 z.2) z.1) =
        .ok ((fileRows (sourceRows db userId selected)).zipIdx.map
          (fun z => copiedRow revisionId (uuid4 z.2) z.1)) :=
    mapM_ok_map _ _
  exact Except.ok.inj (h.frozen.symm.trans hcopied)

/-- No frozen row comes from a live member. -/
theorem Created.not_live (h : Created .plain uuid4 revisionId userId now selected record db db')
    {c : KnowledgeRevisionChunk} (hc : c ∈ db'.frozenOf revisionId) :
    selectedLiveSource db' c = false := by
  rw [h.frozen_eq] at hc
  obtain ⟨z, hz, rfl⟩ := List.mem_map.mp hc
  have hfile := not_liveId_of_file (List.fst_mem_of_mem_zipIdx hz)
  have hmembers : db'.membersOf (copiedRow revisionId (uuid4 z.2) z.1).revisionId =
      (liveIds (sourceRows db userId selected)).map (fun id => ⟨revisionId, id⟩) := h.members
  rw [selectedLiveSource_eq, hmembers, List.any_map, List.any_eq_false]
  intro id hid
  simp only [Function.comp_apply, decide_eq_true_eq]
  rintro rfl
  exact hfile hid

/-- Every frozen row is a candidate. -/
theorem Created.frozenCandidates_eq
    (h : Created .plain uuid4 revisionId userId now selected record db db') :
    frozenCandidates db' revisionId userId =
      (db'.frozenOf revisionId).map frozenCandidate := by
  have hall : (db'.frozenOf revisionId).filter (fun c => !selectedLiveSource db' c) =
      db'.frozenOf revisionId := by
    rw [List.filter_eq_self]
    intro c hc
    rw [h.not_live hc]
    rfl
  rw [frozenCandidates, if_pos h.owns, hall]

/-- In the clear, the frozen candidates are the chunks of the selected file documents. -/
theorem Created.frozenCandidates_shown
    (h : Created .plain uuid4 revisionId userId now selected record db db') :
    ((frozenCandidates db' revisionId userId).map shown).Perm
      ((chunkCandidates db (selectedFiles db userId selected)).map shown) := by
  have hcopies : (frozenCandidates db' revisionId userId).map shown =
      (fileRows (sourceRows db userId selected)).map shownSource := by
    rw [h.frozenCandidates_eq, h.frozen_eq, List.map_map, List.map_map]
    have hshown : (shown ∘ frozenCandidate) ∘ (fun z => copiedRow revisionId (uuid4 z.2) z.1) =
        shownSource ∘ (Prod.fst : SourceRow × Nat → SourceRow) := rfl
    rw [hshown, ← List.map_map, List.zipIdx_map_fst]
  have hchunks : (chunkCandidates db (selectedFiles db userId selected)).map shown =
      ((selectedFiles db userId selected).flatMap
        (fun d => (db.chunksOf d.id).map (sourceRow db d))).map shownSource := by
    rw [chunkCandidates, List.map_flatMap, List.map_flatMap]
    apply List.flatMap_congr
    intro d _
    rw [List.map_map, List.map_map]
    rfl
  rw [hcopies, hchunks]
  exact (fileRows_perm db userId selected).map shownSource

/-! ## The live branch -/

/-- The live members are pairwise different: they are keys of the membership table. -/
theorem Created.liveIds_nodup {pd : PrivateData}
    (h : Created pd uuid4 revisionId userId now selected record db db') :
    (liveIds (sourceRows db userId selected)).Nodup := by
  have hkeys : ((db'.membersOf revisionId).map KnowledgeRevisionWebpage.key).Nodup :=
    (List.filter_sublist.map _).nodup db'.revisionWebpages.keys_nodup
  rw [h.members, List.map_map] at hkeys
  exact hkeys.of_map _

/-- The live members are the selected webpage documents, when each of these has a chunk. -/
theorem Created.liveIds_perm {pd : PrivateData}
    (h : Created pd uuid4 revisionId userId now selected record db db')
    (hchunks : ∀ d ∈ selectedWebpages db userId selected, db.chunksOf d.id ≠ []) :
    (liveIds (sourceRows db userId selected)).Perm
      ((selectedWebpages db userId selected).map (·.id)) := by
  have hdocuments : ((selectedWebpages db userId selected).map (·.id)).Nodup :=
    ((List.filter_sublist.trans List.filter_sublist).map _).nodup db.documents.keys_nodup
  refine (List.perm_ext_iff_of_nodup h.liveIds_nodup hdocuments).mpr ?_
  intro id
  rw [mem_liveIds, List.mem_map]
  constructor
  · rintro ⟨d, hd, hid, -⟩
    exact ⟨d, hd, hid⟩
  · rintro ⟨d, hd, rfl⟩
    exact ⟨d, hd, rfl, hchunks d hd⟩

/-- The documents with these identifiers, as far as they are there, are webpage documents of
the owner. -/
def OwnPages (userId : Uuid) (ids : List Uuid) (db : Database) : Prop :=
  ∀ id ∈ ids, ∀ d, db.document? id = some d →
    d.userId = userId ∧ (db.webpage? id).isSome = true

variable {later : Database}

/-- The live candidates of a later state are what the members have then. -/
theorem Created.liveCandidates_eq {pd : PrivateData}
    (h : Created pd uuid4 revisionId userId now selected record db db')
    (hsame : SameRevision revisionId db' later)
    (hpages : OwnPages userId (liveIds (sourceRows db userId selected)) later) :
    liveCandidates later revisionId userId =
      currentCandidates later (liveIds (sourceRows db userId selected)) := by
  have howns : later.ownsRevision userId revisionId = true := by
    rw [Database.ownsRevision, hsame.revision]
    exact h.owns
  rw [liveCandidates, if_pos howns, hsame.members, h.members, List.flatMap_map, currentCandidates]
  apply List.flatMap_congr
  intro id hid
  unfold memberCandidates currentChunks
  cases hd : later.document? id with
  | none => rfl
  | some d =>
      obtain ⟨howner, hpage⟩ := hpages id hid d hd
      obtain ⟨p, hp⟩ := Option.isSome_iff_exists.mp hpage
      have hdid : d.id = id := Database.document?_id hd
      rw [hp]
      simp only [howner, true_and, hdid]

/-- `_summary` counts a member by its live candidates. -/
theorem length_memberChunks (db : Database) (userId : Uuid) (m : KnowledgeRevisionWebpage) :
    (memberChunks db userId m).length = (memberCandidates db userId m).length := by
  unfold memberChunks memberCandidates
  cases db.document? m.documentId with
  | none => rfl
  | some d =>
      cases db.webpage? m.documentId with
      | none => rfl
      | some p =>
          dsimp only
          split
          · rw [List.length_map]
          · rfl

/-- The count that `get` and `list` report is the number of candidates. -/
theorem Created.summary_count {pd : PrivateData}
    (h : Created pd uuid4 revisionId userId now selected record db db')
    (hsame : SameRevision revisionId db' later)
    (hfrozen : (frozenCandidates later revisionId userId).length =
      (later.frozenOf revisionId).length) :
    (summary later ⟨revisionId, userId, now⟩).chunkCount =
      (frozenCandidates later revisionId userId ++
        liveCandidates later revisionId userId).length := by
  have howns : later.ownsRevision userId revisionId = true := by
    rw [Database.ownsRevision, hsame.revision]
    exact h.owns
  rw [List.length_append, hfrozen, liveCandidates, if_pos howns]
  simp only [summary, List.length_flatMap, length_memberChunks]

/-- A selected webpage document has its chunks of the creation as long as nothing changes. -/
theorem currentChunks_of_unchanged {d : Document} (hd : d ∈ selectedWebpages db userId selected)
    (hsame : later.document? d.id = some d ∧ later.chunksOf d.id = db.chunksOf d.id) :
    currentChunks later d.id = (db.chunksOf d.id).map (chunkCandidate d) := by
  have hready : d.status = .ready := by
    have hselectable := (mem_selectedWebpages.mp hd).2.1
    simp only [selectable, Bool.and_eq_true, decide_eq_true_eq] at hselectable
    exact hselectable.1.2
  rw [currentChunks, hsame.1, hsame.2]
  exact if_pos hready

/-- The count that `create` returned is the number of frozen rows and of the chunks that the
selected webpage documents had. -/
theorem Created.record_count {pd : PrivateData}
    (h : Created pd uuid4 revisionId userId now selected record db db')
    (hsame : ∀ d ∈ selectedWebpages db userId selected,
      later.document? d.id = some d ∧ later.chunksOf d.id = db.chunksOf d.id) :
    record.chunkCount = (db'.frozenOf revisionId).length +
      (currentCandidates later ((selectedWebpages db userId selected).map (·.id))).length := by
  have hfrozen : (db'.frozenOf revisionId).length =
      (fileRows (sourceRows db userId selected)).length := by
    rw [← (mapM_eq_ok.mp h.frozen).length_eq, List.length_zipIdx]
  have hlive : (currentCandidates later ((selectedWebpages db userId selected).map (·.id))).length =
      ((sourceRows db userId selected).filter (fun r => r.webpageDocumentId ≠ none)).length := by
    rw [(webpageRows_perm db userId selected).length_eq, currentCandidates, List.flatMap_map,
      List.length_flatMap, List.length_flatMap]
    congr 1
    apply List.map_congr_left
    intro d hd
    rw [currentChunks_of_unchanged hd (hsame d hd), List.length_map, List.length_map]
  rw [h.count, hfrozen, hlive, List.length_eq_length_filter_add
    (fun r : SourceRow => decide (r.webpageDocumentId = none)), fileRows]
  simp only [decide_not]

end Created

end PortRag.Knowledge
