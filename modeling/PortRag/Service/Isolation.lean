import PortRag.Service.Frames

set_option autoImplicit false

/-!
# Owner isolation

Every read on behalf of an owner looks at the rows of that owner only: it returns on the whole
database what it returns on the owner's slice.  The lookups come first, query by query, then
the reading calls.
-/

namespace PortRag.Service

open PortRag.Foundation PortRag.Db PortRag.Security PortRag.Http PortRag.Ingest PortRag.Webpages
  PortRag.Knowledge PortRag.Search

section Queries

variable (db : Database) (u : Uuid)

@[simp] theorem lockActiveOwner_slice : lockActiveOwner (db.slice u) u = lockActiveOwner db u := by
  unfold lockActiveOwner
  simp only [Database.mem_erasedOwners_slice]

/-- A query for documents of the owner finds them in the slice. -/
theorem documents_slice (p : Document → Bool) (hp : ∀ d, p d = true → d.userId = u) :
    (db.slice u).documents.rows.filter p = db.documents.rows.filter p := by
  change (db.documents.rows.filter _).filter p = _
  rw [List.filter_filter]
  apply List.filter_congr
  intro d _
  cases hd : p d with
  | false => rfl
  | true => simp [hp d hd]

theorem ownsDocument_of_mem {d : Document} (hd : d ∈ db.documents.rows) (howner : d.userId = u) :
    db.ownsDocument u d.id = true :=
  Database.ownsDocument_iff.mpr ⟨d, Table.find?_of_mem hd, howner⟩

theorem document?_filter_slice (id : Uuid) (p : Document → Bool)
    (hp : ∀ d, p d = true → d.userId = u) :
    ((db.slice u).document? id).filter p = (db.document? id).filter p := by
  rw [Database.document?_slice]
  cases db.document? id with
  | none => rfl
  | some d =>
      rw [Option.filter_some]
      split
      · rfl
      · next hne =>
          have hkeep : p d = false := by
            cases hd : p d with
            | false => rfl
            | true => exact absurd (hp d hd) (by simpa using hne)
          rw [Option.filter_none, Option.filter_some, hkeep]
          rfl

theorem select_slice (id : Uuid) : select (db.slice u) id u = select db id u := by
  unfold select
  rw [Database.document?_slice, Database.webpage?_slice]
  cases hd : db.document? id with
  | none => rfl
  | some d =>
      rw [Option.filter_some]
      by_cases howner : d.userId = u
      · have howns : db.ownsDocument u id = true := Database.ownsDocument_iff.mpr ⟨d, hd, howner⟩
        rw [if_pos howns, if_pos (by simpa using howner)]
      · rw [if_neg (by simpa using howner)]
        cases db.webpage? id with
        | none => rfl
        | some p => simp [howner]

theorem chunksOf_slice_of_owns {id : Uuid} (howns : db.ownsDocument u id = true) :
    (db.slice u).chunksOf id = db.chunksOf id := by
  rw [Database.chunksOf_slice, if_pos howns]

theorem ownsDocument_of_select {id : Uuid} {rows : Document × DocumentWebpage}
    (h : select db id u = some rows) : db.ownsDocument u id = true := by
  obtain ⟨howner, hv⟩ := select_eq_some_iff.mp h
  exact Database.ownsDocument_iff.mpr ⟨rows.1, (viewOf_eq_some_iff.mp hv).1, howner⟩

theorem reindexable_slice (id : Uuid) : reindexable (db.slice u) id u = reindexable db id u := by
  refine document?_filter_slice db u id _ ?_
  intro d hd
  exact (of_decide_eq_true hd).1

theorem searchCandidates_slice : searchCandidates (db.slice u) u = searchCandidates db u := by
  unfold searchCandidates
  rw [documents_slice db u _ (fun d hd => (of_decide_eq_true hd).1)]
  apply List.flatMap_congr
  intro d hd
  obtain ⟨hmem, hkeep⟩ := List.mem_filter.mp hd
  have howns := ownsDocument_of_mem db u hmem (of_decide_eq_true hkeep).1
  rw [chunksOf_slice_of_owns db u howns]

theorem selectedLiveSource_slice {c : KnowledgeRevisionChunk}
    (howns : db.ownsRevision u c.revisionId = true) :
    selectedLiveSource (db.slice u) c = selectedLiveSource db c := by
  unfold selectedLiveSource
  rw [Bool.eq_iff_iff, List.any_eq_true, List.any_eq_true]
  constructor
  · rintro ⟨m, hm, hsource⟩
    exact ⟨m, List.mem_of_mem_filter hm, hsource⟩
  · rintro ⟨m, hm, hsource⟩
    refine ⟨m, List.mem_filter.mpr ⟨hm, ?_⟩, hsource⟩
    rw [(of_decide_eq_true hsource).1]
    exact howns

theorem frozenCandidates_slice (revisionId : Uuid) :
    frozenCandidates (db.slice u) revisionId u = frozenCandidates db revisionId u := by
  unfold frozenCandidates
  rw [Database.ownsRevision_slice]
  split
  · next howns =>
      rw [Database.frozenOf_slice howns]
      congr 1
      apply List.filter_congr
      intro c hc
      have hrevision : c.revisionId = revisionId :=
        of_decide_eq_true (List.mem_filter.mp hc).2
      rw [selectedLiveSource_slice db u (hrevision ▸ howns)]
  · rfl

/-- A member is looked up under the condition that its document is the owner's. -/
theorem member_slice {α : Type} (id : Uuid) (f : Document → List DocumentChunk → List α) :
    (match (db.slice u).document? id, (db.slice u).webpage? id with
      | some d, some _ =>
          if d.userId = u ∧ d.status = DocumentStatus.ready then f d ((db.slice u).chunksOf d.id) else []
      | _, _ => []) =
    (match db.document? id, db.webpage? id with
      | some d, some _ => if d.userId = u ∧ d.status = DocumentStatus.ready then f d (db.chunksOf d.id) else []
      | _, _ => []) := by
  rw [Database.document?_slice, Database.webpage?_slice]
  cases hd : db.document? id with
  | none => rfl
  | some d =>
      rw [Option.filter_some]
      by_cases howner : d.userId = u
      · have howns : db.ownsDocument u id = true := Database.ownsDocument_iff.mpr ⟨d, hd, howner⟩
        have hchunks := chunksOf_slice_of_owns db u ((Database.document?_id hd).symm ▸ howns)
        rw [if_pos howns, if_pos (by simpa using howner)]
        cases db.webpage? id with
        | none => rfl
        | some p =>
            dsimp only
            rw [hchunks]
      · rw [if_neg (by simpa using howner)]
        cases db.webpage? id with
        | none => rfl
        | some p => simp [howner]

theorem memberCandidates_slice (m : KnowledgeRevisionWebpage) :
    memberCandidates (db.slice u) u m = memberCandidates db u m :=
  member_slice db u m.documentId (fun d chunks => chunks.map (chunkCandidate d))

theorem memberChunks_slice (m : KnowledgeRevisionWebpage) :
    memberChunks (db.slice u) u m = memberChunks db u m :=
  member_slice db u m.documentId (fun _ chunks => chunks)

theorem liveCandidates_slice (revisionId : Uuid) :
    liveCandidates (db.slice u) revisionId u = liveCandidates db revisionId u := by
  unfold liveCandidates
  rw [Database.ownsRevision_slice]
  split
  · next howns =>
      rw [Database.membersOf_slice howns]
      exact List.flatMap_congr (fun m _ => memberCandidates_slice db u m)
  · rfl

theorem summary_slice {r : KnowledgeRevision} (hr : db.revisions.find? r.id = some r)
    (howner : r.userId = u) : summary (db.slice u) r = summary db r := by
  have howns : db.ownsRevision u r.id = true := Database.ownsRevision_iff.mpr ⟨r, hr, howner⟩
  subst howner
  have hchunks : memberChunks (db.slice r.userId) r.userId = memberChunks db r.userId :=
    funext (memberChunks_slice db r.userId)
  unfold summary
  rw [Database.frozenOf_slice howns, Database.membersOf_slice howns, hchunks]

/-- A read on behalf of an owner returns on the owner's slice what it returns on the whole
database. -/
theorem ServiceRead.exec_slice (r : ServiceRead) (pd : PrivateData) :
    r.exec pd (db.slice r.owner) = r.exec pd db := by
  have howned : ∀ (owner : Uuid) (d : Document), decide (d.userId = owner) = true →
      d.userId = owner := fun _ _ => of_decide_eq_true
  cases r with
  | listDocuments userId =>
      simp only [ServiceRead.exec, ServiceRead.owner, Http.listDocuments, lockActiveOwner_slice,
        documents_slice db userId _ (howned userId)]
      congr 2
      funext _
      apply mapM_congr
      intro d hd
      obtain ⟨hmem, howner⟩ := List.mem_filter.mp (List.mem_mergeSort.mp hd)
      have howns := ownsDocument_of_mem db userId hmem (of_decide_eq_true howner)
      rw [Database.webpage?_slice, if_pos howns]
  | getDocument documentId userId =>
      simp only [ServiceRead.exec, ServiceRead.owner, Http.getDocument, lockActiveOwner_slice,
        document?_filter_slice db userId documentId _ (howned userId)]
      congr 2
      funext _
      cases hfound : (db.document? documentId).filter (fun d => d.userId = userId) with
      | none => rfl
      | some d =>
          obtain ⟨hd, howner⟩ := Option.filter_eq_some_iff.mp hfound
          have howns : db.ownsDocument userId documentId = true :=
            Database.ownsDocument_iff.mpr ⟨d, hd, of_decide_eq_true howner⟩
          dsimp only
          rw [Database.webpage?_slice, if_pos howns]
  | getWebpage documentId userId =>
      simp only [ServiceRead.exec, ServiceRead.owner, Webpages.get, lockActiveOwner_slice,
        select_slice]
  | getChunks documentId userId offset limit =>
      simp only [ServiceRead.exec, ServiceRead.owner, Webpages.getChunks, lockActiveOwner_slice,
        select_slice]
      congr 2
      funext _
      cases hselect : select db documentId userId with
      | none => rfl
      | some rows =>
          have howns := ownsDocument_of_select db userId hselect
          dsimp only
          rw [chunksOf_slice_of_owns db userId howns]
  | getChunksForReindex documentId userId =>
      simp only [ServiceRead.exec, ServiceRead.owner, Ingest.getChunksForReindex,
        lockActiveOwner_slice, reindexable_slice]
      congr 2
      funext _
      cases hfound : reindexable db documentId userId with
      | none => rfl
      | some d =>
          obtain ⟨hd, howner, -⟩ := reindexable_eq_some hfound
          have howns : db.ownsDocument userId documentId = true :=
            Database.ownsDocument_iff.mpr ⟨d, hd, howner⟩
          dsimp only
          rw [orderedChunks, chunksOf_slice_of_owns db userId howns, orderedChunks]
  | search lib userId query topK =>
      simp only [ServiceRead.exec, ServiceRead.owner, Search.search, lockActiveOwner_slice,
        searchCandidates_slice]
  | searchRevision lib userId revisionId query topK =>
      simp only [ServiceRead.exec, ServiceRead.owner, Search.searchRevision, lockActiveOwner_slice,
        revisionRows, frozenCandidates_slice, liveCandidates_slice]
  | getRevision revisionId userId =>
      simp only [ServiceRead.exec, ServiceRead.owner, Knowledge.get, lockActiveOwner_slice,
        Database.find?_revisions_slice, Option.filter_filter, Bool.and_self]
      congr 2
      funext _
      cases hfound : (db.revisions.find? revisionId).filter (fun r => r.userId = userId) with
      | none => rfl
      | some r =>
          obtain ⟨hr, howner⟩ := Option.filter_eq_some_iff.mp hfound
          have hid : db.revisions.find? r.id = some r := (Table.find?_key hr).symm ▸ hr
          rw [Option.map_some, Option.map_some,
            summary_slice db userId hid (of_decide_eq_true howner)]
  | listRevisions userId =>
      have hrows : ((db.slice userId).revisions.rows.filter (fun r => r.userId = userId)) =
          db.revisions.rows.filter (fun r => r.userId = userId) := by
        change (db.revisions.rows.filter _).filter _ = _
        rw [List.filter_filter]
        simp only [Bool.and_self]
      simp only [ServiceRead.exec, ServiceRead.owner, Knowledge.list, lockActiveOwner_slice, hrows]
      congr 2
      funext _
      congr 1
      apply List.map_congr_left
      intro r hr
      obtain ⟨hmem, howner⟩ := List.mem_filter.mp (List.mem_mergeSort.mp hr)
      exact summary_slice db userId (Table.find?_of_mem hmem) (of_decide_eq_true howner)

end Queries

/-! ## Isolation -/

/-- The states agree on the rows of the owner and on whether it is fenced. -/
def Agree (u : Uuid) (a b : Database) : Prop := Database.SameRows (a.slice u) (b.slice u)

theorem Agree.of_slice {u : Uuid} {a b : Database} (h : a.slice u = b.slice u) : Agree u a b := by
  rw [Agree, h]
  exact .refl _

/-- A call leaves the rows of every owner but its own alone. -/
theorem ServiceCall.slice_of_ne (c : ServiceCall) (pd : PrivateData) (db : Database)
    {other : Uuid} (hother : c.actingFor db ≠ some other) :
    (c.exec pd db).db.slice other = db.slice other := by
  rcases c.frame pd db with hsame | ⟨owner, hacting, -, hframe⟩
  · rw [hsame]
  · refine hframe.others other ?_
    rintro rfl
    exact hother hacting

/-- Two states that agree on an owner look alike to every read on behalf of that owner, ties
being broken by the identity of rows; and a write on behalf of an owner leaves the rows of
every other owner as they are. -/
theorem owners_isolated (pd : PrivateData) :
    (∀ (r : ServiceRead) (a b : Database), Agree r.owner a b →
      r.exec pd a.byIdentity = r.exec pd b.byIdentity) ∧
    (∀ (c : ServiceCall) (db : Database) (other : Uuid), c.actingFor db ≠ some other →
      (c.exec pd db).db.slice other = db.slice other) := by
  refine ⟨?_, fun c db other hother => c.slice_of_ne pd db hother⟩
  intro r a b hagree
  calc
    r.exec pd a.byIdentity = r.exec pd (a.byIdentity.slice r.owner) :=
      (r.exec_slice _ pd).symm
    _ = r.exec pd (b.byIdentity.slice r.owner) := by
      rw [Database.slice_byIdentity_eq hagree]
    _ = r.exec pd b.byIdentity := r.exec_slice _ pd

/-- The database of one owner with one document. -/
def sampleStore : Database :=
  ((ServiceCall.createDocument 7 0 1 "key" "name" "mime").exec clearCipher.privateData .empty).db

/-- The listing of an owner does not see the document that another one registers. -/
theorem owners_isolated_sample :
    (ServiceRead.listDocuments 1).exec clearCipher.privateData
        ((ServiceCall.createDocument 8 0 2 "key" "other" "mime").exec clearCipher.privateData
          sampleStore).db.byIdentity =
      (ServiceRead.listDocuments 1).exec clearCipher.privateData sampleStore.byIdentity := by
  obtain ⟨hreads, hwrites⟩ := owners_isolated clearCipher.privateData
  refine hreads _ _ _ (Agree.of_slice ?_)
  refine hwrites _ _ _ ?_
  simp [ServiceCall.actingFor, ServiceRead.owner]

end PortRag.Service
