import PortRag.Service.PageRuns

set_option autoImplicit false

/-!
# Revisions in runs of the service

From its creation on, a revision ranks the copies of its file chunks, and what its webpage
documents hold at the time of the search.
-/

namespace PortRag.Service

open PortRag.Foundation PortRag.Db PortRag.Security PortRag.Http PortRag.Ingest PortRag.Webpages
  PortRag.Knowledge PortRag.Search

variable {opens : Opens} {db db' : Database}

/-- The document that a step registered. -/
def registered (st : ServiceStep) : Option Uuid :=
  st.call.call.fresh.filter
    (fun id => (st.before.document? id).isNone && (st.after.document? id).isSome)

/-- A document of a run was registered by one of its steps. -/
theorem registered_of_run {steps : List ServiceStep} (h : Trace (Serves opens) .empty steps db)
    {id : Uuid} {d : Document} (hd : db.document? id = some d) :
    id ∈ steps.filterMap registered := by
  induction h generalizing d with
  | nil => cases hd
  | @snoc before after init request answer hinit hstep ih =>
      rw [List.filterMap_append, List.mem_append]
      rcases hstep.frame with rfl | ⟨owner, -, -, hframe⟩
      · exact .inl (ih hd)
      rcases hframe.documents id d hd with ⟨old, hold, -⟩ | ⟨hfresh, -, hnone⟩
      · exact .inl (ih hold)
      · refine .inr (List.mem_filterMap.mpr ⟨_, List.mem_cons_self, ?_⟩)
        refine Option.filter_eq_some_iff.mpr ⟨hfresh, ?_⟩
        simp [hnone, hd]

/-- A revision keeps its rows. -/
theorem sameRevision_of_run {steps : List ServiceStep} {revisionId : Uuid} {r : KnowledgeRevision}
    (h : Trace (Serves opens) db steps db') (hr : db.revisions.find? revisionId = some r) :
    SameRevision revisionId db db' := by
  refine h.invariant (I := SameRevision revisionId db) ⟨rfl, rfl, rfl⟩ ?_
  intro before request answer after hsame hstep
  have hbefore : before.revisions.find? revisionId = some r := hsame.revision.trans hr
  rcases hstep.frame with rfl | ⟨owner, -, -, hframe⟩
  · exact hsame
  · exact ⟨(hframe.kept _ _ hbefore).trans hr.symm, (hframe.frozen _ _ hbefore).trans hsame.frozen,
      (hframe.members _ _ hbefore).trans hsame.members⟩

/-- Webpage documents of an owner stay that, or go, while their identifiers are not reused. -/
theorem ownPages_of_run {steps : List ServiceStep} {userId : Uuid} {ids : List Uuid}
    (h : Trace (Serves opens) db steps db') (hreuse : ∀ id ∈ ids, id ∉ steps.filterMap registered)
    (hpages : OwnPages userId ids db) : OwnPages userId ids db' := by
  refine h.holds_through hpages ?_
  intro st hst hstep hbefore id hid d hd
  rcases hstep.frame with hsame | ⟨owner, -, -, hframe⟩
  · rw [hsame] at hd ⊢
    exact hbefore id hid d hd
  rcases hframe.documents id d hd with ⟨old, hold, howner, hpage⟩ | ⟨hfresh, -, hnone⟩
  · obtain ⟨hmine, hkind⟩ := hbefore id hid old hold
    exact ⟨howner.symm.trans hmine, hpage.trans hkind⟩
  · refine absurd (List.mem_filterMap.mpr ⟨st, hst, ?_⟩) (hreuse id hid)
    refine Option.filter_eq_some_iff.mpr ⟨hfresh, ?_⟩
    simp [hnone, hd]

/-- The step that creates a revision, in the clear and as it is stored: the same rows are frozen in
both, and with the same identifiers. -/
theorem created_of_step {st : ServiceStep} {uuid4 : Nat → Uuid} {revisionId userId : Uuid}
    {now : Time} {selected : Option (List Uuid)} {record : KnowledgeRevisionRecord}
    (hstep : Serves opens st.before st.call st.answer st.after) (hsealed : st.before.Sealed opens)
    (hcall : st.call.call = .createRevision uuid4 revisionId now userId selected)
    (hanswer : st.answer = .ok (.revision record)) :
    Created st.call.cipher.privateData uuid4 revisionId userId now selected record st.before
        st.after ∧
      Created .plain uuid4 revisionId userId now selected record (st.before.plaintext opens)
        (st.after.plaintext opens) := by
  have hof : ∀ (pd : PrivateData) (a b : Database),
      (ServiceCall.createRevision uuid4 revisionId now userId selected).exec pd a =
        ⟨.ok (.revision record), b⟩ →
      Created pd uuid4 revisionId userId now selected record a b := by
    intro pd a b hexec
    simp only [ServiceCall.exec, Knowledge.create, mapOutcome] at hexec
    rcases Outcome.ofTransaction_cases a
        (createTransaction pd uuid4 revisionId now a userId selected) with
      ⟨e, -, ho⟩ | ⟨record', a', ht, ho⟩
    · rw [ho] at hexec
      cases hexec
    · rw [ho] at hexec
      cases hexec
      exact created_of_ok ht
  have hexec := hstep.exec
  have himitates := hstep.imitates hsealed
  rw [hcall, hanswer] at hexec himitates
  refine ⟨hof _ _ _ hexec, hof _ _ _ ?_⟩
  obtain ⟨v, hv, rfl⟩ := himitates.result.1 _ rfl
  rcases himitates.moves with hdb | ⟨-, e, he, -⟩
  · rw [← hdb, ← hv]
  · cases he

/-- The rows of a revision in the clear are the same when the stored ones are. -/
theorem sameRevision_plaintext {revisionId : Uuid} (h : SameRevision revisionId db db') :
    SameRevision revisionId (db.plaintext opens) (db'.plaintext opens) := by
  refine ⟨h.revision, ?_, h.members⟩
  rw [Database.frozenOf_plaintext, Database.frozenOf_plaintext, h.frozen, Database.revisionOwner,
    Database.revisionOwner, h.revision]

/-- A ready webpage document of a settled state has chunks. -/
theorem chunks_of_selectedWebpage (h : Everywhere (PageView.Settled opens) db) {userId : Uuid}
    {selected : Option (List Uuid)} {d : Document} (hd : d ∈ selectedWebpages db userId selected) :
    db.chunksOf d.id ≠ [] := by
  obtain ⟨hmem, hselectable, hpage⟩ := mem_selectedWebpages.mp hd
  obtain ⟨p, hp⟩ := Option.isSome_iff_exists.mp hpage
  have hview : viewOf db d.id = some ⟨d, p, db.chunksOf d.id⟩ :=
    viewOf_eq_some_iff.mpr ⟨Table.find?_of_mem hmem, hp, rfl⟩
  have hsettled := h _ _ hview
  simp only [selectable, Bool.and_eq_true, decide_eq_true_eq] at hselectable
  by_cases hhash : p.contentHash = none
  · exact absurd hselectable.1.2 (hsettled.unpublished hhash).1
  · exact (hsettled.published hhash).2.2.2

/-- The live members at the creation are webpage documents of the owner. -/
theorem ownPages_of_created {pd : PrivateData} {uuid4 : Nat → Uuid} {revisionId userId : Uuid}
    {now : Time} {selected : Option (List Uuid)} {record : KnowledgeRevisionRecord}
    (h : Created pd uuid4 revisionId userId now selected record db db') :
    OwnPages userId (liveIds (sourceRows db userId selected)) db' := by
  intro id hid d hd
  obtain ⟨d', hd', rfl, -⟩ := mem_liveIds.mp hid
  obtain ⟨hmem, hselectable, hpage⟩ := mem_selectedWebpages.mp hd'
  rw [Database.document?, h.documents, Table.find?_of_mem hmem] at hd
  cases hd
  rw [Database.webpage?, h.webpages]
  exact ⟨selectable_owner hselectable, hpage⟩

/-- `get` reports the revision. -/
theorem get_of_run {steps : List ServiceStep} (h : Trace (Serves opens) .empty steps db)
    {r : KnowledgeRevision} (hr : db.revisions.find? r.id = some r) :
    Knowledge.get db r.id r.userId = .ok (some (summary db r)) := by
  have hlock : lockActiveOwner db r.userId = .ok () := by
    simp [lockActiveOwner, unfenced_of_run h]
  unfold Knowledge.get
  rw [hlock, hr, Option.filter_some, if_pos (decide_eq_true rfl)]
  rfl

/-- `list` reports the revision, once. -/
theorem list_of_run {steps : List ServiceStep} (h : Trace (Serves opens) .empty steps db)
    {r : KnowledgeRevision} (hr : db.revisions.find? r.id = some r) :
    ∃ records, Knowledge.list db r.userId = .ok records ∧ summary db r ∈ records ∧
      ∀ other ∈ records, other.id = r.id → other = summary db r := by
  have hlock : lockActiveOwner db r.userId = .ok () := by
    simp [lockActiveOwner, unfenced_of_run h]
  refine ⟨((db.revisions.rows.filter (fun row => row.userId = r.userId)).mergeSort
    listedBefore).map (summary db), ?_, ?_, ?_⟩
  · unfold Knowledge.list
    rw [hlock]
    rfl
  · refine List.mem_map_of_mem (List.mem_mergeSort.mpr (List.mem_filter.mpr ⟨?_, ?_⟩))
    · exact Table.find?_mem hr
    · exact decide_eq_true rfl
  · intro other hother hid
    obtain ⟨row, hrow, rfl⟩ := List.mem_map.mp hother
    have hmem := (List.mem_filter.mp (List.mem_mergeSort.mp hrow)).1
    have hsame : row = r := Table.eq_of_key hmem (Table.find?_mem hr) hid
    rw [hsame]

/-- In every run, ingest jobs and reindexes being for file documents and document identifiers
never reused: from the creation of a revision on, its frozen candidates show exactly the
chunks of the selected file documents as they were then, its live candidates are exactly
the current chunks of the selected webpage documents that are there and ready, and `get`
and `list` report their number, which is the one that `create` returned as long as those
webpage documents and their chunks are unchanged. -/
theorem revision_candidates {steps : List ServiceStep}
    (h : Trace (Serves opens) .empty steps db) (hfiles : ∀ st ∈ steps, ForFiles st)
    (hreuse : (steps.filterMap registered).Nodup) {earlier later : List ServiceStep}
    {st : ServiceStep} (hsteps : steps = earlier ++ st :: later) {uuid4 : Nat → Uuid}
    {revisionId userId : Uuid} {now : Time} {selected : Option (List Uuid)}
    {record : KnowledgeRevisionRecord}
    (hcall : st.call.call = .createRevision uuid4 revisionId now userId selected)
    (hanswer : st.answer = .ok (.revision record)) :
    ((frozenCandidates (db.plaintext opens) revisionId userId).map Knowledge.shown).Perm
      ((chunkCandidates (st.before.plaintext opens)
        (selectedFiles (st.before.plaintext opens) userId selected)).map Knowledge.shown) ∧
    (liveCandidates db revisionId userId).Perm
      (currentCandidates db ((selectedWebpages st.before userId selected).map (·.id))) ∧
    ∃ current records, Knowledge.get db revisionId userId = .ok (some current) ∧
      Knowledge.list db userId = .ok records ∧ current ∈ records ∧
      (∀ r ∈ records, r.id = revisionId → r = current) ∧
      current.chunkCount = (frozenCandidates db revisionId userId ++
        liveCandidates db revisionId userId).length ∧
      ((∀ d ∈ selectedWebpages st.before userId selected, db.document? d.id = some d ∧
          db.chunksOf d.id = st.before.chunksOf d.id) →
        current.chunkCount = record.chunkCount) := by
  subst hsteps
  obtain ⟨hearlier, hstep, hlater⟩ := h.split_at
  obtain ⟨hcreated, hclear⟩ :=
    created_of_step hstep (sealed_of_run hearlier) hcall hanswer
  have hsame : SameRevision revisionId st.after db := sameRevision_of_run hlater hcreated.revision
  have hclearSame : SameRevision revisionId (st.after.plaintext opens) (db.plaintext opens) :=
    sameRevision_plaintext hsame
  -- the members are still webpage documents of the owner, where they are there
  have hpages : OwnPages userId (liveIds (sourceRows st.before userId selected)) db := by
    refine ownPages_of_run hlater ?_ (ownPages_of_created hcreated)
    intro id hid
    obtain ⟨d, hd, rfl, -⟩ := mem_liveIds.mp hid
    have hregistered := registered_of_run hearlier
      (Table.find?_of_mem (mem_selectedWebpages.mp hd).1)
    rw [List.filterMap_append, List.nodup_append] at hreuse
    intro hagain
    refine hreuse.2.2 _ hregistered _ ?_ rfl
    rw [List.filterMap_cons]
    split
    · exact hagain
    · exact List.mem_cons_of_mem _ hagain
  have hchunks : ∀ d ∈ selectedWebpages st.before userId selected, st.before.chunksOf d.id ≠ [] :=
    fun d hd => chunks_of_selectedWebpage
      (settled_of_run hearlier (fun s hs => hfiles s (List.mem_append_left _ hs))) hd
  have hperm := hcreated.liveIds_perm hchunks
  have hlive : (liveCandidates db revisionId userId).Perm
      (currentCandidates db ((selectedWebpages st.before userId selected).map (·.id))) := by
    rw [hcreated.liveCandidates_eq hsame hpages]
    exact hperm.flatMap_right _
  -- every frozen row is a candidate
  have hfrozen : (frozenCandidates db revisionId userId).length =
      (db.frozenOf revisionId).length := by
    have hlength := congrArg List.length (@frozenCandidates_plaintext opens db revisionId userId)
    rw [List.length_map] at hlength
    rw [← hlength, hclearSame.frozenCandidates, hclear.frozenCandidates_eq, List.length_map,
      Database.frozenOf_plaintext, List.length_map, hsame.frozen]
  refine ⟨?_, hlive, ?_⟩
  · rw [hclearSame.frozenCandidates]
    exact hclear.frozenCandidates_shown
  · have hrow : db.revisions.find? revisionId = some ⟨revisionId, userId, now⟩ :=
      hsame.revision.trans hcreated.revision
    obtain ⟨records, hlist, hmem, hunique⟩ := list_of_run h (r := ⟨revisionId, userId, now⟩) hrow
    have hcount := hcreated.summary_count hsame hfrozen
    refine ⟨_, records, get_of_run h (r := ⟨revisionId, userId, now⟩) hrow, hlist, hmem, hunique,
      hcount, ?_⟩
    intro hunchanged
    rw [hcount, hcreated.record_count hunchanged, List.length_append, hfrozen, hsame.frozen,
      hlive.length_eq]

/-- A file document and a webpage document are published, and each is selected for a revision; then
the file is deleted, and the webpage is published anew, with two chunks. -/
def sampleCalls : List ServiceCall :=
  [.createDocument 7 0 1 "key" "name" "text/plain",
    .replaceChunks (fun _ => 100) 1 7 [⟨0, "text", .obj []⟩] [[1]],
    .createWebpage ⟨.ok, id⟩ 8 2 1 "page" none ["u"] true, .claimWebpage 9 3 8 1,
    .finish (fun _ => 110) 4 ⟨8, 1, 9, ["u"], none, .initial⟩ "old" "digest"
      (some [⟨0, "old", .obj []⟩]) (some [[2]]),
    .createRevision (fun _ => 200) 50 5 1 (some [8]),
    .createRevision (fun _ => 300) 51 5 1 (some [7]), .deleteDocument 7 1, .enqueue 6 8 1,
    .claimWebpage 10 7 8 1,
    .finish (fun i => if i = 0 then 120 else 121) 8 ⟨8, 1, 10, ["u"], some "digest", .manual⟩ "new"
      "other digest" (some [⟨0, "new", .obj []⟩, ⟨1, "newer", .obj []⟩]) (some [[3], [4]])]

/-- The run of these calls, with the cipher in the clear. -/
def sampleRun : List ServiceStep × Database :=
  run ServiceRequest.exec .empty (sampleCalls.map (fun c => ⟨clearCipher, c⟩))

theorem sampleRun_trace : Trace (Serves clearOpens) .empty sampleRun.1 sampleRun.2 := by
  apply clearRun_trace
  have hplain : ∀ c ∈ sampleCalls, ∀ chunk ∈ c.chunks, chunk.metadata = .obj [] := by
    simp [sampleCalls, ServiceCall.chunks]
  exact fun c hc chunk hchunk => ⟨[], hplain c hc chunk hchunk⟩

theorem sampleRun_files : ∀ st ∈ sampleRun.1, ForFiles st := by
  have hall : sampleRun.1.all (fun st => st.call.call.jobDocument.all
      (fun id => (st.before.webpage? id).isNone)) = true := by decide +kernel
  intro st hst id hid
  have hst := List.all_eq_true.mp hall st hst
  rw [hid, Option.all_some] at hst
  exact Option.isNone_iff_eq_none.mp hst

/-- The answer is a created revision. -/
def isRevision : Except Exc ServiceValue → Bool
  | .ok (.revision _) => true
  | _ => false

theorem eq_of_isRevision {a : Except Exc ServiceValue} (h : isRevision a = true) :
    ∃ record, a = .ok (.revision record) := by
  unfold isRevision at h
  split at h
  · next record => exact ⟨record, rfl⟩
  · cases h

/-- The first revision shows both current chunks of the webpage; the second one keeps the chunk of
the deleted file. -/
theorem revision_candidates_sample :
    (∃ current, Knowledge.get sampleRun.2 50 1 = .ok (some current) ∧ current.chunkCount = 2 ∧
      (liveCandidates sampleRun.2 50 1).Perm (currentCandidates sampleRun.2 [8])) ∧
    ∃ current, Knowledge.get sampleRun.2 51 1 = .ok (some current) ∧ current.chunkCount = 1 ∧
      (frozenCandidates sampleRun.2 51 1).length = 1 := by
  have hreuse : (sampleRun.1.filterMap registered).Nodup := by decide +kernel
  have hcalls : sampleRun.1.map (fun st => st.call.call) = sampleCalls := rfl
  have hstep : ∀ {n : Nat} {st : ServiceStep}, sampleRun.1[n]? = some st →
      sampleRun.1 = sampleRun.1.take n ++ st :: sampleRun.1.drop (n + 1) ∧
        sampleCalls[n]? = some st.call.call := by
    intro n st hst
    obtain ⟨hlt, hget⟩ := List.getElem?_eq_some_iff.mp hst
    rw [← hcalls, List.getElem?_map, hst]
    refine ⟨?_, rfl⟩
    rw [← hget, List.getElem_cons_drop, List.take_append_drop]
  have hfirst : sampleRun.1[5]?.map (fun st => (isRevision st.answer,
      (selectedWebpages st.before 1 (some [8])).map (·.id))) = some (true, [8]) := by decide +kernel
  have hsecond : sampleRun.1[6]?.map (fun st => isRevision st.answer) = some true := by
    decide +kernel
  have hcounts : (frozenCandidates sampleRun.2 50 1).length = 0 ∧
      (liveCandidates sampleRun.2 50 1).length = 2 := by decide +kernel
  have hcounts' : (frozenCandidates sampleRun.2 51 1).length = 1 ∧
      (liveCandidates sampleRun.2 51 1).length = 0 := by decide +kernel
  constructor
  · obtain ⟨st, hst, hfirst⟩ := Option.map_eq_some_iff.mp hfirst
    obtain ⟨hanswer, hpages⟩ := Prod.mk.inj hfirst
    obtain ⟨record, hrecord⟩ := eq_of_isRevision hanswer
    obtain ⟨hsplit, hcall⟩ := hstep hst
    obtain ⟨-, hlive, current, -, hget, -, -, -, hcount, -⟩ := revision_candidates sampleRun_trace
      sampleRun_files hreuse hsplit (Option.some.inj hcall).symm hrecord
    rw [List.length_append, hcounts.1, hcounts.2] at hcount
    rw [hpages] at hlive
    exact ⟨current, hget, hcount, hlive⟩
  · obtain ⟨st, hst, hanswer⟩ := Option.map_eq_some_iff.mp hsecond
    obtain ⟨record, hrecord⟩ := eq_of_isRevision hanswer
    obtain ⟨hsplit, hcall⟩ := hstep hst
    obtain ⟨-, -, current, -, hget, -, -, -, hcount, -⟩ := revision_candidates sampleRun_trace
      sampleRun_files hreuse hsplit (Option.some.inj hcall).symm hrecord
    rw [List.length_append, hcounts'.1, hcounts'.2] at hcount
    exact ⟨current, hget, hcount, hcounts'.1⟩

end PortRag.Service
