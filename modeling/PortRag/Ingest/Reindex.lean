import Mathlib.Logic.Relation
import PortRag.Foundation.Simulation
import PortRag.Http.Documents
import PortRag.Ingest.Endings
import PortRag.Knowledge.Summaries

set_option autoImplicit false

/-!
# Reindexing

`IngestPipeline.reindex` of `rag/ingest/pipeline.py`.  Three transactions, with the embedder
between the first and the second; whatever fails in between, the third one records.  What a
call commits changes embeddings, and the status and the error of one document, and nothing else.
-/

namespace PortRag.Ingest

open PortRag.Foundation PortRag.Db PortRag.Security

/-- What one call of `reindex` meets: the database at each of its calls, whether the call fails
for want of it, and the embedder. -/
structure ReindexEnv where
  world : Nat → Database
  outage : Nat → Option Exc
  cipher : PrivateDataCipher
  embed : List String → Except Exc (List Embedding)
  now : Time

namespace ReindexEnv

/-- Call number `k` of the database. -/
def ask {α : Type} (env : ReindexEnv) (k : Nat) (f : Database → Except Exc α) : Except Exc α :=
  match env.outage k with
  | some e => .error e
  | none => f (env.world k)

/-- `assert_active`, as call number `k`. -/
def admission (env : ReindexEnv) (k : Nat) (userId : Uuid) : Except Exc Unit :=
  env.ask k (fun db => assertActive db userId)

end ReindexEnv

/-- The body of `reindex` before its last transaction: the embeddings, or `none` where there is
no such document. -/
def reembed (env : ReindexEnv) (documentId userId : Uuid) :
    Except Exc (Option (List IngestChunk × List Embedding)) := do
  env.admission 0 userId
  let found ← env.ask 1 (fun db => getChunksForReindex env.cipher.privateData db documentId userId)
  match found with
  | none => pure none
  | some chunks =>
      if chunks.isEmpty then .error (.valueError "document has no chunks to reindex")
      else do
        env.admission 2 userId
        let embeddings ← env.embed (chunks.map IngestChunk.text)
        if embeddings.length ≠ chunks.length then
          .error (.valueError ("embedder returned " ++ toString embeddings.length ++
            " embeddings for " ++ toString chunks.length ++ " chunks"))
        else do
          env.admission 3 userId
          pure (some (chunks, embeddings))

/-- The last transaction of the body. -/
def storeEmbeddings (env : ReindexEnv) (documentId userId : Uuid) (embeddings : List Embedding)
    (db : Database) : Outcome Bool :=
  replaceEmbeddingsAndMarkReady env.now db documentId userId embeddings

/-- The body of `reindex`. -/
def reindexBody (env : ReindexEnv) (documentId userId : Uuid) : Except Exc Bool := do
  match ← reembed env documentId userId with
  | none => pure false
  | some prepared =>
      env.ask 4 (fun db => (storeEmbeddings env documentId userId prepared.2 db).result)

/-- The transaction of the handler. -/
def storeFailure (env : ReindexEnv) (documentId userId : Uuid) (e : Exc) (db : Database) :
    Outcome Bool :=
  markReindexFailed env.cipher.privateData env.now db documentId userId e.message

/-- The handler of every exception but `OwnerDataErased`. -/
def onReindexFailure (env : ReindexEnv) (documentId userId : Uuid) (e : Exc) :
    Except Exc Bool := do
  let markedFailed ← env.ask 5 (fun db => (storeFailure env documentId userId e db).result)
  if markedFailed then .error (.reindexFailed "document reindex failed") else pure false

/-- `IngestPipeline.reindex`.  A cancellation is no `Exception`: the handler does not see it. -/
def reindex (env : ReindexEnv) (documentId userId : Uuid) : Except Exc Bool :=
  match reindexBody env documentId userId with
  | .ok reindexed => .ok reindexed
  | .error .ownerDataErased => .error .ownerDataErased
  | .error .cancelled => .error .cancelled
  | .error e => onReindexFailure env documentId userId e

/-! ## The commits of a call -/

/-- What call number `k`, a transaction, commits: the database before and after. -/
def ReindexEnv.committed (env : ReindexEnv) (k : Nat) (f : Database → Outcome Bool) :
    List (Database × Database) :=
  match env.ask k (fun db => (f db).result) with
  | .ok _ => [(env.world k, (f (env.world k)).db)]
  | .error _ => []

/-- What a call of `reindex` commits. -/
def reindexCommits (env : ReindexEnv) (documentId userId : Uuid) : List (Database × Database) :=
  (match reembed env documentId userId with
    | .ok (some prepared) => env.committed 4 (storeEmbeddings env documentId userId prepared.2)
    | _ => []) ++
  match reindexBody env documentId userId with
  | .ok _ => []
  | .error .ownerDataErased => []
  | .error .cancelled => []
  | .error e => env.committed 5 (storeFailure env documentId userId e)

/-- A chunk without its embedding. -/
def payload (c : DocumentChunk) : Uuid × Uuid × Int × String × Json :=
  (c.id, c.documentId, c.seq, c.text, c.metadata)

/-- What no commit of a reindex of this document by this user touches. -/
structure Preserves (documentId userId : Uuid) (db db' : Database) : Prop where
  /-- The chunks keep their number, their order and all but their embedding. -/
  payloads : db'.chunks.rows.map payload = db.chunks.rows.map payload
  revisions : db'.revisions = db.revisions
  frozen : db'.revisionChunks = db.revisionChunks
  members : db'.revisionWebpages = db.revisionWebpages
  pages : db'.webpages = db.webpages
  /-- Other documents, those of others and those in processing. -/
  others : ∀ id d, db.document? id = some d →
    id ≠ documentId ∨ d.userId ≠ userId ∨ d.status = .processing →
    db'.document? id = some d ∧ db'.chunksOf id = db.chunksOf id

theorem Preserves.refl (documentId userId : Uuid) (db : Database) :
    Preserves documentId userId db db :=
  ⟨rfl, rfl, rfl, rfl, rfl, fun _ _ hd _ => ⟨hd, rfl⟩⟩

theorem payload_reembedded (paired : List (DocumentChunk × Embedding)) (c : DocumentChunk) :
    payload (reembedded paired c) = payload c := by
  unfold reembedded
  split <;> rfl

section Writes

variable {db : Database} {documentId userId : Uuid}

/-- The row of the reindexed document changes in its status and its error. -/
theorem others_settled {d : Document} (hfound : reindexable db documentId userId = some d)
    (status : DocumentStatus) (error : Option String) (now : Time) {id : Uuid} {other : Document}
    (hother : db.document? id = some other)
    (hcase : id ≠ documentId ∨ other.userId ≠ userId ∨ other.status = .processing) :
    (db.updateDocument (settledDocument d status error now)).document? id = some other := by
  obtain ⟨hd, howner, hidle⟩ := reindexable_eq_some hfound
  have hdid : d.id = documentId := Database.document?_id hd
  have hold : db.document? (settledDocument d status error now).id = some d := by
    change db.document? d.id = some d
    rw [hdid, hd]
  have hne : id ≠ (settledDocument d status error now).id := by
    change id ≠ d.id
    rw [hdid]
    rintro rfl
    obtain rfl := Option.some.inj (hd.symm.trans hother)
    rcases hcase with h | h | h
    · exact h rfl
    · exact h howner
    · exact hidle h
  rw [Database.document?_updateDocument hold, if_neg hne, hother]

theorem preserves_settled {d : Document} (hfound : reindexable db documentId userId = some d)
    (status : DocumentStatus) (error : Option String) (now : Time) :
    Preserves documentId userId db (db.updateDocument (settledDocument d status error now)) :=
  ⟨rfl, rfl, rfl, rfl, rfl, fun _ _ hother hcase =>
    ⟨others_settled hfound status error now hother hcase, rfl⟩⟩

/-- New embeddings, paired in the order of `seq`: the transaction changes vectors, status and error
of its own document and nothing else; where it answers `False` it changes nothing. -/
theorem preserves_stored {embeddings : List Embedding} {now : Time} {answer : Bool}
    {db' : Database}
    (h : replaceEmbeddingsTransaction now db documentId userId embeddings = .ok (answer, db')) :
    Preserves documentId userId db db' ∧ (answer = false → db' = db) := by
  obtain ⟨_, -, h⟩ := bind_eq_ok.mp h
  split at h
  · cases pure_eq_ok.mp h
    exact ⟨.refl _ _ _, fun _ => rfl⟩
  · next d hfound =>
      dsimp only at h
      split at h
      · cases h
      · cases pure_eq_ok.mp h
        refine ⟨⟨?_, rfl, rfl, rfl, rfl, ?_⟩, fun hfalse => by cases hfalse⟩
        · change (db.chunks.rows.map _).map payload = _
          rw [List.map_map]
          exact List.map_congr_left fun c _ => payload_reembedded _ c
        · intro id other hother hcase
          refine ⟨?_, ?_⟩
          · exact @others_settled (db.rewriteChunks (reembedded
              ((orderedChunks db documentId).zip embeddings)) (reembedded_id _)
              (reembedded_documentId _)) _ _ _ hfound _ _ _ _ _ hother hcase
          · have hne : id ≠ documentId := by
              rintro rfl
              obtain ⟨hd, howner, hidle⟩ := reindexable_eq_some hfound
              obtain rfl := Option.some.inj (hd.symm.trans hother)
              rcases hcase with h | h | h
              · exact h rfl
              · exact h howner
              · exact hidle h
            rw [Database.chunksOf_updateDocument, Database.chunksOf_rewriteChunks]
            refine (List.map_congr_left ?_).trans (List.map_id _)
            intro c hc
            obtain ⟨hmem, hdoc⟩ := Database.mem_chunksOf.mp hc
            exact reembedded_of_ne hmem (hdoc ▸ hne)

theorem preserves_marked {pd : PrivateData} {now : Time} {error : String} {answer : Bool}
    {db' : Database}
    (h : markReindexFailedTransaction pd now db documentId userId error = .ok (answer, db')) :
    Preserves documentId userId db db' ∧ (answer = false → db' = db) ∧ (answer = true →
      ∃ d stored, reindexable db documentId userId = some d ∧
        db' = db.updateDocument (settledDocument d .failed (some stored) now)) := by
  obtain ⟨_, -, h⟩ := bind_eq_ok.mp h
  split at h
  · cases pure_eq_ok.mp h
    exact ⟨.refl _ _ _, fun _ => rfl, fun htrue => by cases htrue⟩
  · next d hfound =>
      obtain ⟨stored, -, h⟩ := bind_eq_ok.mp h
      cases pure_eq_ok.mp h
      refine ⟨preserves_settled hfound _ _ _, ?_, fun _ => ⟨d, stored, hfound, rfl⟩⟩
      intro hfalse
      cases hfalse

/-! ## Positions -/

/-- Rows paired with embeddings take them by position, when no two are the same row. -/
theorem map_reembedded : ∀ (rows : List DocumentChunk) (embeddings : List Embedding),
    rows.length = embeddings.length → (rows.map DocumentChunk.id).Nodup →
    rows.map (reembedded (rows.zip embeddings)) =
      List.zipWith (fun (c : DocumentChunk) e => { c with embedding := e }) rows embeddings
  | [], _, _, _ => by rw [List.map_nil, List.zipWith_nil_left]
  | c :: rest, [], hlength, _ => by cases hlength
  | c :: rest, e :: embeddings, hlength, hnodup => by
      rw [List.map_cons, List.nodup_cons] at hnodup
      have hrest := map_reembedded rest embeddings (Nat.succ.inj hlength) hnodup.2
      rw [List.map_cons, List.zipWith_cons_cons, List.zip_cons_cons, ← hrest]
      congr 1
      · unfold reembedded
        rw [List.find?_cons_of_pos (by simp)]
      · refine List.map_congr_left fun row hrow => ?_
        have hne : c.id ≠ row.id := fun heq => hnodup.1 (heq ▸ List.mem_map_of_mem hrow)
        unfold reembedded
        rw [List.find?_cons_of_neg (by simpa using hne)]

theorem orderedChunks_nodup (db : Database) (documentId : Uuid) :
    ((orderedChunks db documentId).map DocumentChunk.id).Nodup := by
  have hperm : (orderedChunks db documentId).Perm (db.chunksOf documentId) :=
    List.mergeSort_perm _ _
  refine (hperm.map DocumentChunk.id).nodup_iff.mpr ?_
  exact (List.filter_sublist.map DocumentChunk.id).nodup db.chunks.keys_nodup

/-- The chunks after a reindex, in the order of `seq`. -/
theorem orderedChunks_reembedded {embeddings : List Embedding}
    (hlength : (orderedChunks db documentId).length = embeddings.length) :
    orderedChunks (db.rewriteChunks (reembedded ((orderedChunks db documentId).zip embeddings))
        (reembedded_id _) (reembedded_documentId _)) documentId =
      List.zipWith (fun (c : DocumentChunk) e => { c with embedding := e })
        (orderedChunks db documentId) embeddings := by
  have hseq : ∀ paired c, (reembedded paired c).seq = c.seq := by
    intro paired c
    have hpayload := payload_reembedded paired c
    simp only [payload, Prod.mk.injEq] at hpayload
    exact hpayload.2.2.1
  rw [← map_reembedded _ _ hlength (orderedChunks_nodup db documentId)]
  rw [orderedChunks, Database.chunksOf_rewriteChunks]
  refine (List.map_mergeSort ?_).symm
  intro a _ b _
  rw [hseq, hseq]

end Writes

/-! ## What others do meanwhile -/

/-- What others may commit between two calls: deletions and new revisions; a search commits
nothing. -/
inductive Beside (db : Database) : Database → Prop where
  | deletion (documentId userId : Uuid) : Beside db (Http.deleteDocument db documentId userId).db
  | revision (pd : PrivateData) (uuid4 : Nat → Uuid) (revisionId : Uuid) (now : Time)
      (userId : Uuid) (selected : Option (List Uuid)) :
      Beside db (Knowledge.create pd uuid4 revisionId now db userId selected).db

/-- A new revision leaves the documents and their chunks alone. -/
theorem create_keeps {pd : PrivateData} {uuid4 : Nat → Uuid} {revisionId userId : Uuid} {now : Time}
    {selected : Option (List Uuid)} {db db' : Database} {record : Knowledge.KnowledgeRevisionRecord}
    (h : Knowledge.createTransaction pd uuid4 revisionId now db userId selected =
      .ok (record, db')) : db'.documents = db.documents ∧ db'.chunks = db.chunks := by
  obtain ⟨frozen, withRevision, withChunks, -, hrevision, -, hchunks, hmembers, -⟩ :=
    Knowledge.createTransaction_ok h
  obtain ⟨_, _, _, rfl⟩ := Database.insertRevision_ok hrevision
  obtain ⟨_, _, _, rfl⟩ := Database.insertRevisionChunks_ok hchunks
  obtain ⟨_, _, _, rfl⟩ := Database.insertRevisionWebpages_ok hmembers
  exact ⟨rfl, rfl⟩

/-- A document that is still there has its chunks: what is committed beside the call deletes whole
documents or adds revisions. -/
theorem Beside.keeps {db db' : Database} (h : Beside db db') {id : Uuid} {d : Document}
    (hd : db'.document? id = some d) :
    db.document? id = some d ∧ db'.chunksOf id = db.chunksOf id := by
  cases h with
  | deletion documentId userId =>
      rcases Outcome.ofTransaction_cases db (Http.deleteTransaction db documentId userId) with
        ⟨e, -, ho⟩ | ⟨deleted, db', ht, ho⟩
      · unfold Http.deleteDocument at hd ⊢
        rw [ho] at hd ⊢
        exact ⟨hd, rfl⟩
      · obtain ⟨-, hdb, -⟩ := Http.deleteTransaction_ok ht
        unfold Http.deleteDocument at hd ⊢
        rw [ho, hdb] at hd ⊢
        unfold Database.deleteDocument at hd ⊢
        rw [Database.document?_keepDocuments] at hd
        obtain ⟨hold, hkeep⟩ := Option.filter_eq_some_iff.mp hd
        refine ⟨hold, ?_⟩
        rw [Database.chunksOf_keepDocuments, hold, Option.any_some, if_pos hkeep]
  | revision pd uuid4 revisionId now userId selected =>
      rcases Outcome.ofTransaction_cases db (Knowledge.createTransaction pd uuid4 revisionId now db
        userId selected) with ⟨e, -, ho⟩ | ⟨record, db', ht, ho⟩
      · unfold Knowledge.create at hd ⊢
        rw [ho] at hd ⊢
        exact ⟨hd, rfl⟩
      · obtain ⟨hdocuments, hchunks⟩ := create_keeps ht
        unfold Knowledge.create at hd ⊢
        rw [ho] at hd ⊢
        unfold Database.document? at hd ⊢
        unfold Database.chunksOf
        rw [hdocuments] at hd
        rw [hchunks]
        exact ⟨hd, rfl⟩

/-- So it is after any number of such commits. -/
theorem beside_keeps {db db' : Database} (h : Relation.ReflTransGen Beside db db') {id : Uuid}
    {d : Document} (hd : db'.document? id = some d) :
    db.document? id = some d ∧ db'.chunksOf id = db.chunksOf id := by
  induction h with
  | refl => exact ⟨hd, rfl⟩
  | tail _ hlast ih =>
      obtain ⟨hmid, hchunks⟩ := hlast.keeps hd
      obtain ⟨hfirst, hrest⟩ := ih hmid
      exact ⟨hfirst, hchunks.trans hrest⟩

/-! ## The ends of a reindex -/

/-- The document is ready, and each chunk has the vector at its own position. -/
def Reindexed (env : ReindexEnv) (documentId userId : Uuid) : Prop :=
  ∃ chunks embeddings after d,
    getChunksForReindex env.cipher.privateData (env.world 1) documentId userId = .ok (some chunks) ∧
    chunks.map (·.seq) = (orderedChunks (env.world 1) documentId).map (·.seq) ∧
    env.embed (chunks.map IngestChunk.text) = .ok embeddings ∧
    embeddings.length = chunks.length ∧
    reindexCommits env documentId userId = [(env.world 4, after)] ∧
    after.document? documentId = some d ∧ d.status = .ready ∧ d.error = none ∧
    orderedChunks after documentId =
      List.zipWith (fun (c : DocumentChunk) e => { c with embedding := e })
        (orderedChunks (env.world 1) documentId) embeddings

/-- The failure of the document is recorded, and that is all. -/
def FailureRecorded (env : ReindexEnv) (documentId userId : Uuid) : Prop :=
  ∃ d stored, reindexable (env.world 5) documentId userId = some d ∧
    reindexCommits env documentId userId = [(env.world 5,
      (env.world 5).updateDocument (settledDocument d .failed (some stored) env.now))]

/-- The call has changed nothing. -/
def Unchanged (env : ReindexEnv) (documentId userId : Uuid) : Prop :=
  ∀ w ∈ reindexCommits env documentId userId, w.2 = w.1

/-- `ReindexFailedError` is raised by `reindex` and by nothing that it calls. -/
structure OwnError (env : ReindexEnv) : Prop where
  calls : ∀ k message, env.outage k ≠ some (.reindexFailed message)
  encrypt : ∀ value binding message,
    env.cipher.encrypt value binding ≠ .error (.reindexFailed message)

section Calls

variable {env : ReindexEnv} {documentId userId : Uuid}

theorem reindex_committed_ok {k : Nat} {f : Database → Outcome Bool} {a : Bool}
    (h : env.ask k (fun db => (f db).result) = .ok a) :
    (f (env.world k)).result = .ok a ∧
      env.committed k f = [(env.world k, (f (env.world k)).db)] := by
  refine ⟨?_, ?_⟩
  · unfold ReindexEnv.ask at h
    split at h
    · cases h
    · exact h
  · unfold ReindexEnv.committed
    rw [h]

theorem reindex_committed_error {k : Nat} {f : Database → Outcome Bool} {e : Exc}
    (h : env.ask k (fun db => (f db).result) = .error e) : env.committed k f = [] := by
  unfold ReindexEnv.committed
  rw [h]

/-- A body that returns commits what its last transaction does. -/
theorem reindexBody_ok {answer : Bool} (h : reindexBody env documentId userId = .ok answer) :
    (answer = false ∧ reindexCommits env documentId userId = []) ∨
      ∃ chunks embeddings, reembed env documentId userId = .ok (some (chunks, embeddings)) ∧
        (storeEmbeddings env documentId userId embeddings (env.world 4)).result = .ok answer ∧
        reindexCommits env documentId userId = [(env.world 4,
          (storeEmbeddings env documentId userId embeddings (env.world 4)).db)] := by
  obtain ⟨found, hfound, hrest⟩ := bind_eq_ok.mp h
  cases found with
  | none =>
      refine .inl ⟨(Except.ok.inj hrest).symm, ?_⟩
      unfold reindexCommits
      rw [hfound, h]
      rfl
  | some prepared =>
      obtain ⟨hresult, hcommitted⟩ := reindex_committed_ok hrest
      refine .inr ⟨prepared.1, prepared.2, hfound, hresult, ?_⟩
      unfold reindexCommits
      rw [hfound, h, List.append_nil]
      exact hcommitted

/-- A body that raises leaves its commits to the handler. -/
theorem reindexBody_error {e : Exc} (h : reindexBody env documentId userId = .error e) :
    reindexCommits env documentId userId =
      match (.error e : Except Exc Bool) with
      | .ok _ => []
      | .error .ownerDataErased => []
      | .error .cancelled => []
      | .error e => env.committed 5 (storeFailure env documentId userId e) := by
  unfold reindexCommits
  rw [h]
  rcases bind_eq_error.mp h with hfound | ⟨found, hfound, hrest⟩
  · rw [hfound]
    rfl
  · rw [hfound]
    cases found with
    | none => cases hrest
    | some prepared =>
        dsimp only
        rw [reindex_committed_error hrest, List.nil_append]

/-- What was prepared for the last transaction: the chunks that the first one read, and as many
vectors, which the embedder returned for their texts. -/
theorem reembed_some {chunks : List IngestChunk} {embeddings : List Embedding}
    (h : reembed env documentId userId = .ok (some (chunks, embeddings))) :
    getChunksForReindex env.cipher.privateData (env.world 1) documentId userId =
        .ok (some chunks) ∧
      env.embed (chunks.map IngestChunk.text) = .ok embeddings ∧
      embeddings.length = chunks.length := by
  obtain ⟨_, -, h⟩ := bind_eq_ok.mp h
  obtain ⟨found, hfound, h⟩ := bind_eq_ok.mp h
  have hread : getChunksForReindex env.cipher.privateData (env.world 1) documentId userId =
      .ok found := by
    unfold ReindexEnv.ask at hfound
    split at hfound
    · cases hfound
    · exact hfound
  cases found with
  | none => cases h
  | some read =>
      dsimp only at h
      split at h
      · cases h
      · obtain ⟨_, -, h⟩ := bind_eq_ok.mp h
        obtain ⟨vectors, hembed, h⟩ := bind_eq_ok.mp h
        split at h
        · cases h
        · next hlength =>
            obtain ⟨_, -, h⟩ := bind_eq_ok.mp h
            cases pure_eq_ok.mp h
            exact ⟨hread, hembed, Classical.not_not.mp hlength⟩

/-- The chunks that were read are those of the rows, in their order. -/
theorem getChunksForReindex_seqs {pd : PrivateData} {db : Database} {chunks : List IngestChunk}
    (h : getChunksForReindex pd db documentId userId = .ok (some chunks)) :
    chunks.map (·.seq) = (orderedChunks db documentId).map (·.seq) := by
  obtain ⟨_, -, h⟩ := bind_eq_ok.mp h
  split at h
  · cases h
  · obtain ⟨read, hread, h⟩ := bind_eq_ok.mp h
    cases pure_eq_ok.mp h
    refine (eq_of_forall₂_eq ?_).symm
    rw [List.forall₂_map_left_iff, List.forall₂_map_right_iff]
    refine (mapM_eq_ok.mp hread).imp ?_
    intro row chunk hrow
    obtain ⟨_, -, hrow⟩ := bind_eq_ok.mp hrow
    obtain ⟨_, -, hrow⟩ := bind_eq_ok.mp hrow
    cases pure_eq_ok.mp hrow
    rfl

/-- What the last transaction leaves where it finds the document. -/
theorem storeEmbeddings_true {embeddings : List Embedding} {db : Database}
    (h : (storeEmbeddings env documentId userId embeddings db).result = .ok true) :
    ∃ d, db.document? documentId = some d ∧
      (orderedChunks db documentId).length = embeddings.length ∧
      (storeEmbeddings env documentId userId embeddings db).db.document? documentId =
        some (settledDocument d .ready none env.now) ∧
      orderedChunks (storeEmbeddings env documentId userId embeddings db).db documentId =
        List.zipWith (fun (c : DocumentChunk) e => { c with embedding := e })
          (orderedChunks db documentId) embeddings := by
  have ht := Outcome.ok_of_result h
  generalize hafter : (Outcome.ofTransaction db (replaceEmbeddingsTransaction env.now db documentId
    userId embeddings)).db = after at ht
  change (storeEmbeddings env documentId userId embeddings db).db = after at hafter
  rw [hafter]
  obtain ⟨_, -, ht⟩ := bind_eq_ok.mp ht
  split at ht
  · cases ht
  · next d hfound =>
      dsimp only at ht
      split at ht
      · cases ht
      · next hlength =>
          obtain ⟨hd, -, -⟩ := reindexable_eq_some hfound
          have hlength' := Classical.not_not.mp hlength
          obtain rfl := (Prod.mk.inj (pure_eq_ok.mp ht)).2
          exact ⟨d, hd, hlength', document?_settled hd _ _ _, orderedChunks_reembedded hlength'⟩

/-- A call that returns true has reindexed the document. -/
theorem reindexed_of_body (hbeside : ∀ k < 4,
      Relation.ReflTransGen Beside (env.world k) (env.world (k + 1)))
    (h : reindexBody env documentId userId = .ok true) : Reindexed env documentId userId := by
  rcases reindexBody_ok h with ⟨hfalse, -⟩ | ⟨chunks, embeddings, hprepared, hresult, hcommits⟩
  · cases hfalse
  obtain ⟨hread, hembed, hlength⟩ := reembed_some hprepared
  obtain ⟨d, hd, -, hsettled, hordered⟩ := storeEmbeddings_true hresult
  -- the document is still there, so nobody has touched its chunks
  have hsame : (env.world 4).chunksOf documentId = (env.world 1).chunksOf documentId := by
    have hpath := ((hbeside 1 (by omega)).trans (hbeside 2 (by omega))).trans
      (hbeside 3 (by omega))
    exact (beside_keeps hpath hd).2
  have hordered' : orderedChunks (env.world 4) documentId =
      orderedChunks (env.world 1) documentId := by
    unfold orderedChunks
    rw [hsame]
  refine ⟨chunks, embeddings, _, _, hread, getChunksForReindex_seqs hread, hembed, hlength,
    hcommits, hsettled, rfl, rfl, ?_⟩
  rw [hordered, hordered']

/-- What the body commits. -/
theorem body_preserves {answer : Bool} (h : reindexBody env documentId userId = .ok answer) :
    ∀ w ∈ reindexCommits env documentId userId,
      Preserves documentId userId w.1 w.2 ∧ (answer = false → w.2 = w.1) := by
  rcases reindexBody_ok h with ⟨-, hcommits⟩ | ⟨chunks, embeddings, -, hresult, hcommits⟩
  · rw [hcommits]
    exact List.forall_mem_nil _
  · rw [hcommits]
    exact List.forall_mem_singleton.mpr (preserves_stored (Outcome.ok_of_result hresult))

/-- What the handler commits: the failure of its own document at most, which it has then recorded
when it raises. -/
theorem handler_preserves {e : Exc} (hcommits : reindexCommits env documentId userId =
      env.committed 5 (storeFailure env documentId userId e)) :
    (∀ w ∈ reindexCommits env documentId userId, Preserves documentId userId w.1 w.2) ∧
      (onReindexFailure env documentId userId e = .ok false → Unchanged env documentId userId) ∧
      onReindexFailure env documentId userId e ≠ .ok true ∧
      ∀ raised, onReindexFailure env documentId userId e = .error raised →
        (raised = .reindexFailed "document reindex failed" ∧
            FailureRecorded env documentId userId) ∨
          (reindexCommits env documentId userId = [] ∧
            env.ask 5 (fun db => (storeFailure env documentId userId e db).result) =
              .error raised) := by
  unfold onReindexFailure
  cases hask : env.ask 5 (fun db => (storeFailure env documentId userId e db).result) with
  | error raised =>
      rw [reindex_committed_error hask] at hcommits
      rw [hcommits]
      refine ⟨List.forall_mem_nil _, (fun hok => by cases hok), (fun hok => by cases hok), ?_⟩
      intro raised' hraised
      exact .inr ⟨rfl, hraised⟩
  | ok markedFailed =>
      obtain ⟨hresult, hcommitted⟩ := reindex_committed_ok hask
      rw [hcommitted] at hcommits
      obtain ⟨hpreserves, hfalse, htrue⟩ := preserves_marked (Outcome.ok_of_result hresult)
      unfold Unchanged FailureRecorded
      rw [hcommits]
      cases markedFailed with
      | false =>
          refine ⟨List.forall_mem_singleton.mpr hpreserves,
            fun _ => List.forall_mem_singleton.mpr (hfalse rfl), (fun hok => by cases hok), ?_⟩
          intro raised hraised
          cases hraised
      | true =>
          obtain ⟨d, stored, hfound, hafter⟩ := htrue rfl
          refine ⟨List.forall_mem_singleton.mpr hpreserves, (fun hok => by cases hok),
            (fun hok => by cases hok), ?_⟩
          intro raised hraised
          refine .inl ⟨(Except.error.inj hraised).symm, d, stored, hfound, ?_⟩
          exact congrArg (fun after => [(env.world 5, after)]) hafter

/-- A mark raises no `ReindexFailedError`. -/
theorem mark_raises_none (hown : OwnError env) {e : Exc} {message : String} :
    env.ask 5 (fun db => (storeFailure env documentId userId e db).result) ≠
      .error (.reindexFailed message) := by
  intro h
  unfold ReindexEnv.ask at h
  split at h
  · next e' houtage =>
      rw [Except.error.inj h] at houtage
      exact hown.calls 5 message houtage
  · rcases bind_eq_error.mp (Outcome.error_of_result h) with h | ⟨_, -, h⟩
    · exact absurd (lockActiveOwner_error h).1 (by simp)
    · split at h
      · cases h
      · rcases bind_eq_error.mp h with h | ⟨_, -, h⟩
        · exact hown.encrypt _ _ message h
        · cases h

end Calls

/-- What a call of `reindex` may do, for every document, every embedder and whatever deletions,
searches and new revisions are committed beside it. -/
structure ReindexEffects (env : ReindexEnv) (documentId userId : Uuid) : Prop where
  frame : ∀ w ∈ reindexCommits env documentId userId, Preserves documentId userId w.1 w.2
  returnsTrue : reindex env documentId userId = .ok true → Reindexed env documentId userId
  returnsFalse : reindex env documentId userId = .ok false → Unchanged env documentId userId
  raisesFailed : ∀ message, reindex env documentId userId = .error (.reindexFailed message) →
    FailureRecorded env documentId userId
  raisesOther : ∀ e, reindex env documentId userId = .error e →
    (∀ message, e ≠ .reindexFailed message) → Unchanged env documentId userId

theorem unchanged_of_nil {env : ReindexEnv} {documentId userId : Uuid}
    (h : reindexCommits env documentId userId = []) : Unchanged env documentId userId := by
  unfold Unchanged
  rw [h]
  exact List.forall_mem_nil _

/-- Everything that a call of `reindex` does, whatever deletions, searches and new revisions are
committed between its transactions.  The embedder may answer anything; the call changes nothing but
vectors, status and error of its own document, and each of its answers says what it has done: `True`
that every chunk has the vector of its text, `False` that nothing is changed, and the error that the
failure is recorded. -/
theorem reindex_effects (env : ReindexEnv) (documentId userId : Uuid) (hown : OwnError env)
    (hbeside : ∀ k < 4, Relation.ReflTransGen Beside (env.world k) (env.world (k + 1))) :
    ReindexEffects env documentId userId := by
  cases hbody : reindexBody env documentId userId with
  | ok answer =>
      have hend : reindex env documentId userId = .ok answer := by
        unfold reindex
        rw [hbody]
      have hpreserves := body_preserves hbody
      refine ⟨fun w hw => (hpreserves w hw).1, ?_, ?_, ?_, ?_⟩
      · intro htrue
        cases hend.symm.trans htrue
        exact reindexed_of_body hbeside hbody
      · intro hfalse
        cases hend.symm.trans hfalse
        exact fun w hw => (hpreserves w hw).2 rfl
      · intro message herror
        cases hend.symm.trans herror
      · intro e herror
        cases hend.symm.trans herror
  | error e =>
      have hcommits := reindexBody_error hbody
      -- two exceptions pass through, and the handler sees all others
      have hpass : ∀ passed, reindexCommits env documentId userId = [] →
          reindex env documentId userId = .error passed →
          (∀ message, passed ≠ .reindexFailed message) →
          ReindexEffects env documentId userId := by
        intro passed hnil hend hother
        refine ⟨?_, ?_, ?_, ?_, fun _ _ _ => unchanged_of_nil hnil⟩
        · rw [hnil]
          exact List.forall_mem_nil _
        · intro htrue
          cases hend.symm.trans htrue
        · intro hfalse
          cases hend.symm.trans hfalse
        · intro message herror
          exact absurd (Except.error.inj (hend.symm.trans herror)) (hother message)
      by_cases herased : e = .ownerDataErased
      · subst herased
        refine hpass .ownerDataErased hcommits ?_ (by simp)
        unfold reindex
        rw [hbody]
      by_cases hlive : e = .cancelled
      · subst hlive
        refine hpass .cancelled hcommits ?_ (by simp)
        unfold reindex
        rw [hbody]
      have hend : reindex env documentId userId = onReindexFailure env documentId userId e := by
        unfold reindex
        rw [hbody]
        cases e <;> first | rfl | contradiction
      have hhandled : reindexCommits env documentId userId =
          env.committed 5 (storeFailure env documentId userId e) := by
        rw [hcommits]
        cases e <;> first | rfl | contradiction
      obtain ⟨hframe, hfalse, htrue, hraised⟩ := handler_preserves hhandled
      refine ⟨hframe, ?_, ?_, ?_, ?_⟩
      · intro h
        exact absurd (hend.symm.trans h) htrue
      · intro h
        exact hfalse (hend.symm.trans h)
      · intro message h
        rcases hraised _ (hend.symm.trans h) with ⟨-, hrecorded⟩ | ⟨-, hmark⟩
        · exact hrecorded
        · exact absurd hmark (mark_raises_none hown)
      · intro raised h hother
        rcases hraised _ (hend.symm.trans h) with ⟨hfailed, -⟩ | ⟨hnil, -⟩
        · exact absurd hfailed (hother _)
        · exact unchanged_of_nil hnil

/-! ## A revision beside a reindex -/

/-- A ready document of user 1, with its cells still in the clear. -/
def readyDocument : Document :=
  { (default : Document) with id := 7, userId := 1, name := "Handbook", status := .ready }

/-- Its two chunks. -/
def readyChunks : List DocumentChunk :=
  [⟨20, 7, 0, "First", .obj [], [0]⟩, ⟨21, 7, 1, "Second", .obj [], [0]⟩]

/-- The database with the document. -/
def readyDatabase : Database :=
  { Database.empty with
    documents := ⟨[readyDocument], by decide⟩
    chunks := ⟨readyChunks, by decide⟩
    chunks_fk := by decide
    webpages_fk := by simp [Database.empty] }

/-- The identifiers of the two frozen rows. -/
def frozenIds (i : Nat) : Uuid := if i = 0 then 30 else 31

/-- The database once a revision of the document has been committed. -/
def revisedDatabase : Database :=
  (Knowledge.create clearCipher.privateData frozenIds 5 0 readyDatabase 1 (some [7])).db

/-- The revision is committed after the document's chunks have been read; the embedder answers
with the length of each text. -/
def besideEnv : ReindexEnv where
  world := fun k => if k ≤ 1 then readyDatabase else revisedDatabase
  outage := fun _ => none
  cipher := clearCipher
  embed := fun texts => .ok (texts.map (fun text => [(text.length : Int)]))
  now := 9

theorem orderedChunks_readyDatabase : orderedChunks readyDatabase 7 = readyChunks := by
  have hchunks : readyDatabase.chunksOf 7 = readyChunks := rfl
  rw [orderedChunks, hchunks]
  exact List.mergeSort_of_pairwise (by decide)

theorem sourceRows_readyDatabase : Knowledge.sourceRows readyDatabase 1 (some [7]) =
    Knowledge.joinedRows readyDatabase 1 (some [7]) :=
  List.mergeSort_of_pairwise (by decide +kernel)

/-- The revision is created, and the documents and the chunks are left as they are. -/
theorem revisedDatabase_spec : revisedDatabase.documents = readyDatabase.documents ∧
    revisedDatabase.chunks = readyDatabase.chunks ∧
    revisedDatabase.erasedOwners = readyDatabase.erasedOwners ∧
    revisedDatabase.revisions.find? 5 = some ⟨5, 1, 0⟩ := by
  have hfrozen : (Knowledge.freeze clearCipher.privateData frozenIds 5 1 (some [7])
      readyDatabase).isOk = true := by
    rw [Knowledge.freeze, sourceRows_readyDatabase]
    decide +kernel
  obtain ⟨frozen, hfrozen⟩ := exists_of_isOk hfrozen
  have hfound : Knowledge.allFound (some [7])
      (Knowledge.sourceRows readyDatabase 1 (some [7])) = true := by
    rw [sourceRows_readyDatabase]
    decide +kernel
  have hrows : (Knowledge.fileRows (Knowledge.sourceRows readyDatabase 1 (some [7]))).length = 2 := by
    rw [sourceRows_readyDatabase]
    decide +kernel
  have hfresh : Knowledge.FreshRows frozenIds 1 (some [7]) readyDatabase := by
    refine ⟨?_, fun i _ => Table.find?_empty (frozenIds i)⟩
    rw [hrows]
    intro i j hi hj hsame
    unfold frozenIds at hsame
    split_ifs at hsame
    · omega
    · cases hsame
    · cases hsame
    · omega
  obtain ⟨record, db', ht⟩ : ∃ record db', Knowledge.createTransaction clearCipher.privateData
      frozenIds 5 0 readyDatabase 1 (some [7]) = .ok (record, db') :=
    Knowledge.createTransaction_of_free (by decide) (Table.find?_empty 5) hfound hfresh hfrozen
  have hdb : revisedDatabase = db' := by
    unfold revisedDatabase Knowledge.create
    rw [ht]
    rfl
  obtain ⟨hdocuments, hchunks⟩ := create_keeps ht
  rw [hdb]
  refine ⟨hdocuments, hchunks, ?_, (Knowledge.created_of_ok ht).revision⟩
  obtain ⟨_, _, _, -, hrevision, -, hrows, hmembers, -⟩ := Knowledge.createTransaction_ok ht
  obtain ⟨-, _, _, rfl⟩ := Database.insertRevision_ok hrevision
  obtain ⟨_, _, _, rfl⟩ := Database.insertRevisionChunks_ok hrows
  obtain ⟨_, _, _, rfl⟩ := Database.insertRevisionWebpages_ok hmembers
  rfl

theorem besideEnv_own : OwnError besideEnv where
  calls := fun _ _ h => by cases h
  encrypt := fun value binding message h => by
    unfold besideEnv clearCipher at h
    dsimp only at h
    split at h <;> cases h

/-- Nothing but the revision is committed beside the call. -/
theorem besideEnv_beside (k : Nat) :
    Relation.ReflTransGen Beside (besideEnv.world k) (besideEnv.world (k + 1)) := by
  by_cases hbefore : k + 1 ≤ 1
  · have hk : k ≤ 1 := by omega
    change Relation.ReflTransGen Beside (if k ≤ 1 then _ else _) (if k + 1 ≤ 1 then _ else _)
    rw [if_pos hk, if_pos hbefore]
  · change Relation.ReflTransGen Beside (if k ≤ 1 then _ else _) (if k + 1 ≤ 1 then _ else _)
    rw [if_neg hbefore]
    split
    · exact .single (.revision _ _ _ _ _ _)
    · exact .refl

theorem getChunksForReindex_readyDatabase :
    getChunksForReindex clearCipher.privateData readyDatabase 7 1 =
      .ok (some [⟨0, "First", .obj []⟩, ⟨1, "Second", .obj []⟩]) := by
  unfold getChunksForReindex
  rw [orderedChunks_readyDatabase]
  rfl

/-- The call finds the document ready, and returns `True` although a revision is committed beside
it. -/
theorem reindex_besideEnv : reindex besideEnv 7 1 = .ok true := by
  obtain ⟨hdocuments, hchunks, herased, -⟩ := revisedDatabase_spec
  have hactive : ∀ k, besideEnv.admission k 1 = .ok () := by
    intro k
    change lockActiveOwner (if k ≤ 1 then readyDatabase else revisedDatabase) 1 = .ok ()
    unfold lockActiveOwner
    split
    · rfl
    · rw [herased]
      rfl
  have hordered : orderedChunks revisedDatabase 7 = readyChunks := by
    rw [← orderedChunks_readyDatabase]
    unfold orderedChunks Database.chunksOf
    rw [hchunks]
  have hfound : reindexable revisedDatabase 7 1 = some readyDocument := by
    unfold reindexable Database.document?
    rw [hdocuments]
    rfl
  have hembedded : reembed besideEnv 7 1 = .ok (some
      ([⟨0, "First", .obj []⟩, ⟨1, "Second", .obj []⟩], [[5], [6]])) := by
    unfold reembed
    rw [hactive, hactive, hactive]
    refine bind_eq_ok.mpr ⟨(), rfl, bind_eq_ok.mpr ⟨_, getChunksForReindex_readyDatabase, ?_⟩⟩
    rfl
  have hstored : (storeEmbeddings besideEnv 7 1 [[5], [6]] revisedDatabase).result = .ok true := by
    have hlength : ¬(orderedChunks revisedDatabase 7).length ≠
        ([[5], [6]] : List Embedding).length := by
      rw [hordered]
      decide
    unfold storeEmbeddings replaceEmbeddingsAndMarkReady replaceEmbeddingsTransaction lockActiveOwner
    rw [hfound, herased]
    dsimp only
    rw [if_neg hlength]
    rfl
  have hbody : reindexBody besideEnv 7 1 = .ok true := by
    unfold reindexBody
    rw [hembedded]
    exact hstored
  unfold reindex
  rw [hbody]

/-- Beside a new revision, a reindex of the document that it freezes gives each of the two chunks
the vector of its own text, and leaves the revision as it is. -/
theorem reindex_effects_beside : ∃ after,
    reindex besideEnv 7 1 = .ok true ∧ readyDatabase.revisions.find? 5 = none ∧
      reindexCommits besideEnv 7 1 = [(revisedDatabase, after)] ∧
      after.revisions.find? 5 = some ⟨5, 1, 0⟩ ∧
      after.revisionChunks = revisedDatabase.revisionChunks ∧
      (orderedChunks after 7).map (fun c => (c.seq, c.text, c.embedding)) =
        [(0, "First", [5]), (1, "Second", [6])] := by
  have heffects := reindex_effects besideEnv 7 1 besideEnv_own (fun k _ => besideEnv_beside k)
  obtain ⟨chunks, embeddings, after, d, hread, -, hembed, -, hcommits, -, -, -, hordered⟩ :=
    heffects.returnsTrue reindex_besideEnv
  obtain rfl := Option.some.inj (Except.ok.inj (hread.symm.trans getChunksForReindex_readyDatabase))
  obtain rfl := Except.ok.inj hembed
  have hframe := heffects.frame (revisedDatabase, after) (hcommits ▸ List.mem_singleton.mpr rfl)
  refine ⟨after, reindex_besideEnv, Table.find?_empty 5, hcommits, ?_, hframe.frozen, ?_⟩
  · rw [hframe.revisions]
    exact revisedDatabase_spec.2.2.2
  · have hworld : besideEnv.world 1 = readyDatabase := rfl
    rw [hordered, hworld, orderedChunks_readyDatabase]
    decide

end PortRag.Ingest
