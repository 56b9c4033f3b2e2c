import Mathlib.Algebra.Order.Ring.Rat
import PortRag.Foundation.Ranking
import PortRag.Search.Repository

set_option autoImplicit false

/-!
# The ranking of a revision search

`search_revision` cuts the frozen and the live branch to the nearest `top_k` each and ranks what
is left by score.  SQL leaves open how rows of one distance are ordered, so the results are
stated for every answer the statement may get; they are those of ranking the union once.
-/

namespace PortRag.Search

open PortRag.Foundation PortRag.Db PortRag.Security PortRag.Ingest PortRag.Knowledge

/-! ## The service above the repository -/

/-- `SearchService.search_revision`, with `uuid.UUID` of a text and `embed_query` as
parameters. -/
def searchRevisionService (uuid : String → Except Exc Uuid)
    (embedQuery : String → Except Exc Embedding) (defaultTopK : Nat)
    (searchRevision : Uuid → Uuid → Embedding → Nat → Except Exc (List SearchHit))
    (userId knowledgeRevisionId query : String) (topK : Int) : Except Exc (List SearchHit) := do
  let normalizedUserId := strip userId
  let normalizedRevisionId := strip knowledgeRevisionId
  let normalizedQuery := strip query
  if normalizedUserId = "" then .error (.valueError "user_id is required")
  else if normalizedRevisionId = "" then .error (.valueError "knowledge_revision_id is required")
  else if normalizedQuery = "" then .error (.valueError "query is required")
  else if topK < 0 then .error (.valueError "top_k must be zero or greater")
  else
    let resolvedTopK := if topK = 0 then defaultTopK else topK.toNat
    let embedding ← embedQuery normalizedQuery
    let revision ← uuid normalizedRevisionId
    let owner ← uuid normalizedUserId
    searchRevision owner revision embedding resolvedTopK

/-! ## The statement -/

section Statement

variable (lib : SearchFunctions) (db : Database) (userId revisionId : Uuid) (query : Embedding)
  (topK : Nat)

/-- The column `score`. -/
def score (row : CandidateRow) : Rat := 1 - lib.cosineDistance row.embedding query

/-- All candidates of `search_revision`. -/
def revisionCandidates : List CandidateRow :=
  frozenCandidates db revisionId userId ++ liveCandidates db revisionId userId

/-- The rows are an answer to the statement: both branches `ORDER BY distance LIMIT top_k`, their
union `ORDER BY score DESC LIMIT top_k`. -/
def RevisionAnswer (rows : List CandidateRow) : Prop :=
  ∃ frozen live,
    Selects (fun row => lib.cosineDistance row.embedding query) topK
      (frozenCandidates db revisionId userId) frozen ∧
    Selects (fun row => lib.cosineDistance row.embedding query) topK
      (liveCandidates db revisionId userId) live ∧
    Selects (fun row => -score lib query row) topK (frozen ++ live) rows

/-- `search_revision` returns these hits: those of an answer to its statement. -/
def ReturnsHits (pd : PrivateData) (hits : List SearchHit) : Prop :=
  lockActiveOwner db userId = .ok () ∧
    ∃ rows, RevisionAnswer lib db userId revisionId query topK rows ∧
      rows.mapM (hit lib pd query userId) = .ok hits

/-- What a candidate is: a row of one of the two chunk tables. -/
def CandidateRow.source (row : CandidateRow) : Bool × Uuid :=
  (row.storageRevisionId.isSome, row.chunkId)

/-- The hits are those of ranking all candidates once, by score, and giving the first `topK`. -/
structure PlainTopK (pd : PrivateData) (hits : List SearchHit) : Prop where
  sorted : hits.Pairwise (fun a b => b.score ≤ a.score)
  length : hits.length = min topK (revisionCandidates db userId revisionId).length
  shown : ∃ rows left : List CandidateRow, rows.mapM (hit lib pd query userId) = .ok hits ∧
    (rows ++ left).Perm (revisionCandidates db userId revisionId) ∧
    (rows.map CandidateRow.source).Nodup ∧
    ∀ a ∈ rows, ∀ b ∈ left, score lib query b ≤ score lib query a
  ranked : ∀ ranked : List CandidateRow, ranked.Perm (revisionCandidates db userId revisionId) →
    ranked.Pairwise (fun a b => score lib query b ≤ score lib query a) →
    hits.map SearchHit.score = (ranked.take topK).map (score lib query)

end Statement

section Answers

variable {lib : SearchFunctions} {db : Database} {userId revisionId : Uuid} {query : Embedding}
  {topK : Nat}

/-- A sort that is cut is an answer. -/
theorem selects_mergeSort {α κ : Type} [LinearOrder κ] (key : α → κ) (k : Nat) (rows : List α)
    (le : α → α → Bool) (hle : ∀ a b, le a b = true ↔ key a ≤ key b) :
    Selects key k rows ((rows.mergeSort le).take k) := by
  have htrans : ∀ a b c, le a b = true → le b c = true → le a c = true := by
    intro a b c hab hbc
    exact (hle a c).mpr (le_trans ((hle a b).mp hab) ((hle b c).mp hbc))
  have htotal : ∀ a b, (le a b || le b a) = true := by
    intro a b
    rw [Bool.or_eq_true, hle, hle]
    exact le_total _ _
  refine ⟨rows.mergeSort le, List.mergeSort_perm _ _, ?_, rfl⟩
  exact (List.pairwise_mergeSort htrans htotal rows).imp (fun h => (hle _ _).mp h)

theorem nearest_selects (rows : List CandidateRow) :
    Selects (fun row => lib.cosineDistance row.embedding query) topK rows
      (nearest lib query topK rows) :=
  selects_mergeSort _ _ _ _ (fun _ _ => decide_eq_true_iff)

theorem revisionRows_answer :
    RevisionAnswer lib db userId revisionId query topK
      (revisionRows lib db userId revisionId query topK) := by
  refine ⟨_, _, nearest_selects _, nearest_selects _, selects_mergeSort _ _ _ _ fun a b => ?_⟩
  rw [scoreOrder, decide_eq_true_iff, score, score, neg_le_neg_iff]

theorem returnsHits_of_ok {pd : PrivateData} {hits : List SearchHit}
    (h : searchRevision lib pd db userId revisionId query topK = .ok hits) :
    ReturnsHits lib db userId revisionId query topK pd hits := by
  obtain ⟨u, hlock, hhits⟩ := bind_eq_ok.mp h
  exact ⟨hlock, _, revisionRows_answer, hhits⟩

theorem hit_score {pd : PrivateData} {row : CandidateRow} {found : SearchHit}
    (h : hit lib pd query userId row = .ok found) : found.score = score lib query row := by
  obtain ⟨name, -, h⟩ := bind_eq_ok.mp h
  obtain ⟨text, -, h⟩ := bind_eq_ok.mp h
  obtain ⟨metadata, -, h⟩ := bind_eq_ok.mp h
  obtain rfl := pure_eq_ok.mp h
  rfl

/-- The search returns where all its candidates can be read. -/
theorem searchRevision_returns {pd : PrivateData} (hactive : lockActiveOwner db userId = .ok ())
    (hread : ∀ row ∈ revisionCandidates db userId revisionId,
      ∃ found, hit lib pd query userId row = .ok found) :
    ∃ hits, searchRevision lib pd db userId revisionId query topK = .ok hits := by
  have hrows : ∀ row ∈ revisionRows lib db userId revisionId query topK,
      row ∈ revisionCandidates db userId revisionId := by
    intro row hrow
    have hmerged := List.mem_mergeSort.mp (List.mem_of_mem_take hrow)
    rcases List.mem_append.mp hmerged with hrow | hrow
    · exact List.mem_append_left _ (List.mem_mergeSort.mp (List.mem_of_mem_take hrow))
    · exact List.mem_append_right _ (List.mem_mergeSort.mp (List.mem_of_mem_take hrow))
  obtain ⟨hits, hhits⟩ := exists_mapM_ok (fun row hrow => hread row (hrows row hrow))
  exact ⟨hits, bind_eq_ok.mpr ⟨(), hactive, hhits⟩⟩

/-! ## No candidate twice -/

theorem frozen_sources :
    ((frozenCandidates db revisionId userId).map CandidateRow.source).Nodup := by
  unfold frozenCandidates
  split
  · rw [List.map_map]
    have hids : ((db.revisionChunks.rows.filter (fun c => decide (c.revisionId = revisionId))).filter
        (fun c => !selectedLiveSource db c)).Sublist db.revisionChunks.rows :=
      List.filter_sublist.trans List.filter_sublist
    have hmap := (hids.map KnowledgeRevisionChunk.id).nodup db.revisionChunks.keys_nodup
    rw [Database.frozenOf]
    have hpair := hmap.map (f := fun id => (true, id)) (fun a b hab => (Prod.mk.inj hab).2)
    rw [List.map_map] at hpair
    exact hpair
  · exact List.nodup_nil

theorem member_sources (member : KnowledgeRevisionWebpage) :
    ((memberCandidates db userId member).map CandidateRow.source).Nodup ∧
      ∀ row ∈ memberCandidates db userId member, row.storageRevisionId = none ∧
        ∃ chunk ∈ db.chunks.rows, chunk.id = row.chunkId ∧
          chunk.documentId = member.documentId := by
  unfold memberCandidates
  split
  case h_1 document page hdoc hpage =>
    have hid := Database.document?_id hdoc
    split
    · constructor
      · have hids : ((db.chunksOf document.id).map DocumentChunk.id).Nodup :=
          (List.filter_sublist.map _).nodup db.chunks.keys_nodup
        have hpair := hids.map (f := fun id => (false, id)) (fun a b hab => (Prod.mk.inj hab).2)
        rw [List.map_map] at hpair
        rw [List.map_map]
        exact hpair
      · intro row hrow
        obtain ⟨chunk, hchunk, rfl⟩ := List.mem_map.mp hrow
        obtain ⟨hmem, howner⟩ := Database.mem_chunksOf.mp hchunk
        exact ⟨rfl, chunk, hmem, rfl, howner.trans hid⟩
    · simp
  case h_2 => simp

theorem live_sources :
    ((liveCandidates db revisionId userId).map CandidateRow.source).Nodup := by
  unfold liveCandidates
  split
  · rw [List.map_flatMap, List.nodup_flatMap]
    refine ⟨fun member _ => (member_sources member).1, ?_⟩
    have hmembers : ((db.membersOf revisionId).map KnowledgeRevisionWebpage.key).Nodup :=
      (List.filter_sublist.map _).nodup db.revisionWebpages.keys_nodup
    refine (List.pairwise_map.mp hmembers).imp_of_mem ?_
    intro a b ha hb hne source hsa hsb
    obtain ⟨rowA, hrowA, rfl⟩ := List.mem_map.mp hsa
    obtain ⟨rowB, hrowB, hsame⟩ := List.mem_map.mp hsb
    obtain ⟨-, chunkA, hchunkA, hidA, hdocA⟩ := (member_sources a).2 rowA hrowA
    obtain ⟨-, chunkB, hchunkB, hidB, hdocB⟩ := (member_sources b).2 rowB hrowB
    have hid : chunkB.id = chunkA.id := by
      rw [hidA, hidB]
      exact (Prod.mk.inj hsame).2
    have hchunk : chunkB = chunkA := Table.eq_of_key hchunkB hchunkA hid
    have hrevA : a.revisionId = revisionId := by simpa using (List.mem_filter.mp ha).2
    have hrevB : b.revisionId = revisionId := by simpa using (List.mem_filter.mp hb).2
    refine hne ?_
    rw [KnowledgeRevisionWebpage.key, KnowledgeRevisionWebpage.key, hrevA, hrevB, ← hdocA, ← hdocB,
      hchunk]
  · exact List.nodup_nil

theorem candidate_sources :
    ((revisionCandidates db userId revisionId).map CandidateRow.source).Nodup := by
  rw [revisionCandidates, List.map_append, List.nodup_append]
  refine ⟨frozen_sources, live_sources, ?_⟩
  intro a ha b hb hab
  obtain ⟨rowA, hrowA, rfl⟩ := List.mem_map.mp ha
  obtain ⟨rowB, hrowB, rfl⟩ := List.mem_map.mp hb
  have hfrozen : rowA.storageRevisionId.isSome = true := by
    unfold frozenCandidates at hrowA
    split at hrowA
    · obtain ⟨chunk, -, rfl⟩ := List.mem_map.mp hrowA
      rfl
    · cases hrowA
  have hlive : rowB.storageRevisionId = none := by
    unfold liveCandidates at hrowB
    split at hrowB
    · obtain ⟨member, -, hrowB⟩ := List.mem_flatMap.mp hrowB
      exact ((member_sources member).2 rowB hrowB).1
    · cases hrowB
  have hsame := (Prod.mk.inj hab).1
  rw [hfrozen, hlive] at hsame
  cases hsame

/-! ## The plain top-k -/

/-- By distance is by score. -/
theorem selects_score {rows out : List CandidateRow}
    (h : Selects (fun row => lib.cosineDistance row.embedding query) topK rows out) :
    Selects (fun row => -score lib query row) topK rows out := by
  obtain ⟨sorted, hperm, hsorted, hout⟩ := h
  refine ⟨sorted, hperm, hsorted.imp ?_, hout⟩
  intro a b hab
  have hscore : score lib query b ≤ score lib query a := sub_le_sub_left hab 1
  exact neg_le_neg hscore

/-- An answer to the statement ranks the union. -/
theorem RevisionAnswer.selects {rows : List CandidateRow}
    (h : RevisionAnswer lib db userId revisionId query topK rows) :
    Selects (fun row => -score lib query row) topK (revisionCandidates db userId revisionId) rows := by
  obtain ⟨frozen, live, hfrozen, hlive, hrows⟩ := h
  exact (selects_score hfrozen).merge (selects_score hlive) hrows

theorem hits_scores {pd : PrivateData} {rows : List CandidateRow} {hits : List SearchHit}
    (h : rows.mapM (hit lib pd query userId) = .ok hits) :
    hits.map SearchHit.score = rows.map (score lib query) := by
  have hpairs := mapM_eq_ok.mp h
  clear h
  induction hpairs with
  | nil => rfl
  | cons hrow _ ih => rw [List.map_cons, List.map_cons, hit_score hrow, ih]

theorem ReturnsHits.plainTopK {pd : PrivateData} {hits : List SearchHit}
    (h : ReturnsHits lib db userId revisionId query topK pd hits) :
    PlainTopK lib db userId revisionId query topK pd hits := by
  obtain ⟨-, rows, hanswer, hhits⟩ := h
  have hselects := hanswer.selects
  have hscores := hits_scores hhits
  obtain ⟨left, hperm, hleft⟩ := hselects.rest
  refine ⟨?_, ?_, ⟨rows, left, hhits, hperm, ?_, ?_⟩, ?_⟩
  · have hrows : (hits.map SearchHit.score).Pairwise (fun a b => b ≤ a) := by
      rw [hscores]
      refine List.pairwise_map.mpr (hselects.sorted.imp ?_)
      exact fun hab => neg_le_neg_iff.mp hab
    exact List.pairwise_map.mp hrows
  · rw [← hselects.length, ← List.length_map (f := SearchHit.score), hscores, List.length_map]
  · have hsources := (hperm.map CandidateRow.source).nodup_iff.mpr candidate_sources
    rw [List.map_append] at hsources
    exact hsources.sublist (List.sublist_append_left _ _)
  · exact fun a ha b hb => neg_le_neg_iff.mp (hleft a ha b hb)
  · intro ranked hranked hsorted
    have hplain : Selects (fun row => -score lib query row) topK
        (revisionCandidates db userId revisionId) (ranked.take topK) :=
      ⟨ranked, hranked, hsorted.imp (fun hab => neg_le_neg hab), rfl⟩
    have hkeys := congrArg (List.map (fun key => -key)) (hselects.map_key hplain)
    rw [List.map_map, List.map_map] at hkeys
    simp only [Function.comp_def, neg_neg] at hkeys
    rw [hscores]
    exact hkeys

end Answers

/-! ## The search of the service -/

/-- The search of a repository, on any query: what it returns are hits of an answer to the
statement. -/
def Answering (lib : SearchFunctions) (pd : PrivateData) (db : Database)
    (searchRevision : Uuid → Uuid → Embedding → Nat → Except Exc (List SearchHit)) : Prop :=
  ∀ {userId revisionId query topK hits}, searchRevision userId revisionId query topK = .ok hits →
    ReturnsHits lib db userId revisionId query topK pd hits

theorem answering_searchRevision (lib : SearchFunctions) (pd : PrivateData) (db : Database) :
    Answering lib pd db (searchRevision lib pd db) :=
  fun h => returnsHits_of_ok h

section Service

variable {lib : SearchFunctions} {pd : PrivateData} {db : Database}
  {repository : Uuid → Uuid → Embedding → Nat → Except Exc (List SearchHit)}
  {uuid : String → Except Exc Uuid} {embedQuery : String → Except Exc Embedding}
  {defaultTopK : Nat} {user revision text : String} {topK : Int} {hits : List SearchHit}

/-- What the service passes on to the repository. -/
theorem searchRevisionService_ok (htopK : 1 ≤ topK)
    (h : searchRevisionService uuid embedQuery defaultTopK repository user revision text topK =
      .ok hits) :
    ∃ userId revisionId query, uuid (strip user) = .ok userId ∧
      uuid (strip revision) = .ok revisionId ∧ embedQuery (strip text) = .ok query ∧
      repository userId revisionId query topK.toNat = .ok hits := by
  have hzero : topK ≠ 0 := by omega
  unfold searchRevisionService at h
  simp only [if_neg hzero] at h
  split at h
  · cases h
  split at h
  · cases h
  split at h
  · cases h
  split at h
  · cases h
  obtain ⟨query, hquery, h⟩ := bind_eq_ok.mp h
  obtain ⟨revisionId, hrevision, h⟩ := bind_eq_ok.mp h
  obtain ⟨userId, huser, h⟩ := bind_eq_ok.mp h
  exact ⟨userId, revisionId, query, huser, hrevision, hquery, h⟩

/-- A revision search gives the plain top-k of the union of its two branches: what ranking all
candidates of the revision at once would give.  Each branch of the statement is cut at `top_k`
before they are joined, and the cuts lose nothing, because a candidate among the first `top_k` of
the union is among the first `top_k` of its branch. -/
theorem search_revision_top_k (hrepository : Answering lib pd db repository) (htopK : 1 ≤ topK)
    (h : searchRevisionService uuid embedQuery defaultTopK repository user revision text topK =
      .ok hits) :
    ∃ userId revisionId query, uuid (strip user) = .ok userId ∧
      uuid (strip revision) = .ok revisionId ∧ embedQuery (strip text) = .ok query ∧
      PlainTopK lib db userId revisionId query topK.toNat pd hits := by
  obtain ⟨userId, revisionId, query, huser, hrevision, hquery, hok⟩ :=
    searchRevisionService_ok htopK h
  exact ⟨userId, revisionId, query, huser, hrevision, hquery, (hrepository hok).plainTopK⟩

/-- So does the search through the repository of the model, which breaks ties in one of the ways
that the statement leaves open. -/
theorem searchRevision_top_k (htopK : 1 ≤ topK)
    (h : searchRevisionService uuid embedQuery defaultTopK (searchRevision lib pd db) user revision
      text topK = .ok hits) :
    ∃ userId revisionId query, uuid (strip user) = .ok userId ∧
      uuid (strip revision) = .ok revisionId ∧ embedQuery (strip text) = .ok query ∧
      PlainTopK lib db userId revisionId query topK.toNat pd hits := by
  obtain ⟨userId, revisionId, query, huser, hrevision, hquery, hok⟩ :=
    searchRevisionService_ok htopK h
  exact ⟨userId, revisionId, query, huser, hrevision, hquery,
    (answering_searchRevision lib pd db hok).plainTopK⟩

end Service

/-! ### Two candidates, one of each branch -/

/-- A revision with one frozen chunk and one live webpage. -/
def twoCandidates : Database where
  documents := ⟨[⟨7, 1, "key", "page", "text/html", .ready, none, 0, 0⟩], by simp⟩
  chunks := ⟨[⟨8, 7, 0, "live", .obj [], [1]⟩], by simp⟩
  webpages := ⟨[⟨7, ["u"], true, .idle, .initial, "text", none, none, none, none, none, none,
    none, none⟩], by simp⟩
  revisions := ⟨[⟨50, 1, 0⟩], by simp⟩
  revisionChunks := ⟨[⟨9, 50, 6, "file", 0, "frozen", .obj [], [2]⟩], by simp⟩
  revisionWebpages := ⟨[⟨50, 7⟩], by simp⟩
  erasedOwners := []
  chunks_fk := by simp
  webpages_fk := by simp
  revisionChunks_fk := by simp
  revisionWebpages_fk := by simp

/-- Distances by the first component. -/
def firstComponent : SearchFunctions where
  cosineDistance := fun embedding _ => embedding.headD 0
  str := fun _ => ""

/-- `uuid.UUID` of the texts of the sample. -/
def twoCandidatesIds (text : String) : Except Exc Uuid := .ok (if text = "user" then 1 else 50)

theorem search_revision_top_k_two :
    ∃ hits userId revisionId query, twoCandidatesIds (strip "user") = .ok userId ∧
      twoCandidatesIds (strip "revision") = .ok revisionId ∧
      (fun _ => Except.ok [] : String → Except Exc Embedding) (strip "text") = .ok query ∧
      PlainTopK firstComponent twoCandidates userId revisionId query 1 clearCipher.privateData
        hits := by
  have hread : (revisionCandidates twoCandidates 1 50).all (fun row =>
      (hit firstComponent clearCipher.privateData [] 1 row).isOk) = true := by decide +kernel
  have hreads : ∀ row ∈ revisionCandidates twoCandidates 1 50,
      ∃ found, hit firstComponent clearCipher.privateData [] 1 row = .ok found := by
    intro row hrow
    have hok := List.all_eq_true.mp hread row hrow
    cases hhit : hit firstComponent clearCipher.privateData [] 1 row with
    | ok found => exact ⟨found, rfl⟩
    | error e =>
        rw [hhit] at hok
        cases hok
  obtain ⟨hits, hok⟩ :=
    @searchRevision_returns firstComponent twoCandidates 1 50 [] 1 clearCipher.privateData rfl hreads
  have hservice : searchRevisionService twoCandidatesIds (fun _ => .ok []) 5
      (searchRevision firstComponent clearCipher.privateData twoCandidates) "user" "revision"
      "text" 1 = .ok hits := by
    rw [← hok]
    rfl
  exact ⟨hits, search_revision_top_k (answering_searchRevision _ _ _) (by decide) hservice⟩

end PortRag.Search
