import PortRag.Service.WrittenRows

set_option autoImplicit false

/-!
# Calls on a store in the clear

Every accepted call on a store in the clear takes the update that it declares: for each call one
lemma, which finds the rows that its transaction changed.
-/

namespace PortRag.Service

open PortRag.Foundation PortRag.Db PortRag.Security PortRag.Http PortRag.Ingest PortRag.Webpages
  PortRag.Knowledge PortRag.Search

variable {db db' : Database} {id : Uuid}

/-! ## Calls -/

/-- New embeddings leave every private column alone. -/
theorem column_rewriteChunks (db : Database) (paired : List (DocumentChunk × Embedding)) :
    column (db.rewriteChunks (reembedded paired) (reembedded_id _) (reembedded_documentId _)) =
      column db := by
  have hchunk : ∀ id chunkId, chunk? (db.rewriteChunks (reembedded paired) (reembedded_id _)
      (reembedded_documentId _)) id chunkId = (chunk? db id chunkId).map (reembedded paired) := by
    intro id chunkId
    unfold chunk?
    rw [Database.chunksOf_rewriteChunks, List.find?_map]
    congr 2
    funext c
    simp
  have htext : ∀ c, (reembedded paired c).text = c.text := by
    intro c
    unfold reembedded
    split <;> rfl
  have hmetadata : ∀ c, (reembedded paired c).metadata = c.metadata := by
    intro c
    unfold reembedded
    split <;> rfl
  funext field
  cases field with
  | text id chunkId => simp [column, hchunk, htext, Function.comp_def]
  | metadata id chunkId => simp [column, hchunk, hmetadata, Function.comp_def]
  | _ => rfl

/-- The result of a call, from the result that it wraps. -/
theorem ok_of_mapOutcome {α β : Type} {f : α → β} {o : Outcome α} {b : β}
    (h : (mapOutcome f o).result = .ok b) : ∃ a, o.result = .ok a ∧ f a = b :=
  map_eq_ok.mp h

section Calls

theorem createDocument_takes {documentId userId : Uuid} {now : Time}
    {knowledgeKey name mime : String} {record : DocumentRecord}
    (h : (createProcessingDocument .plain documentId now db userId knowledgeKey name mime).result =
      .ok record) :
    (Update.ofList [written (.name documentId) name, cleared (.error documentId)]
      (fun _ => False)).Takes (column db) (column
        (createProcessingDocument .plain documentId now db userId knowledgeKey name mime).db) := by
  unfold createProcessingDocument at h ⊢
  rcases Outcome.afterCommit_cases db _ (fun d => toPrivateRecord .plain d none) with
    ⟨e, -, ho⟩ | ⟨d, db', ht, ho⟩
  · rw [ho] at h
    cases h
  · rw [ho]
    obtain ⟨_, -, ht⟩ := bind_eq_ok.mp ht
    obtain ⟨stored, hstored, ht⟩ := bind_eq_ok.mp ht
    obtain ⟨inserted, hinserted, ht⟩ := bind_eq_ok.mp ht
    cases hstored
    cases pure_eq_ok.mp ht
    exact takes_insertDocument (mapError_eq_ok.mp hinserted)

/-- A registration writes the name, the URLs in their order and the empty content of its document,
clears both errors, and touches no other field. -/
theorem createWebpage_takes {lib : UrlFunctions} {documentId userId : Uuid} {now : Time}
    {knowledgeKey : String} {name : Option String} {urls : List String} {autoSync : Bool}
    {record : DocumentRecord}
    (h : Webpages.createTransaction .plain lib documentId now db userId knowledgeKey name urls autoSync =
      .ok (record, db')) :
    (Update.ofList ([written (.name documentId) (displayName lib name (storedUrls lib urls)),
        cleared (.error documentId), written (.content documentId) "",
        cleared (.syncError documentId)] ++
        (storedUrls lib urls).zipIdx.map (fun u => written (.url documentId u.2) u.1))
      (fun _ => False)).Takes (column db) (column db') := by
  unfold Webpages.createTransaction at h
  split at h
  swap
  · cases h
  obtain ⟨normalized, hnormalized, h⟩ := bind_eq_ok.mp h
  obtain ⟨_, -, h⟩ := bind_eq_ok.mp h
  obtain ⟨storedName, hname, h⟩ := bind_eq_ok.mp h
  obtain ⟨mid, hmid, h⟩ := bind_eq_ok.mp h
  obtain ⟨encrypted, hencrypted, h⟩ := bind_eq_ok.mp h
  obtain ⟨content, hcontent, h⟩ := bind_eq_ok.mp h
  obtain ⟨withPage, hpage, h⟩ := bind_eq_ok.mp h
  obtain ⟨_, -, h⟩ := bind_eq_ok.mp h
  cases pure_eq_ok.mp h
  cases hname
  cases hcontent
  have hstored : storedUrls lib urls = normalized.eraseDups := by
    unfold storedUrls
    rw [hnormalized]
  have hurls : encrypted = normalized.eraseDups := by
    have hmap := mapM_ok_map (ε := Exc) (fun u : String × Nat => u.1) normalized.eraseDups.zipIdx
    rw [List.zipIdx_map_fst] at hmap
    exact Except.ok.inj (hencrypted.symm.trans hmap)
  rw [hstored]
  subst hurls
  have hdocument := mapError_eq_ok.mp hmid
  have hfresh : mid.webpage? documentId = none := by
    obtain ⟨hnew, t, ht, rfl⟩ := Database.insertDocument_ok hdocument
    have hnone : db.webpage? documentId = none := Database.webpage?_of_document?_none hnew
    exact hnone
  refine (takes_insertDocument hdocument).seq (takes_insertWebpage hfresh hpage) ?_ ?_ ?_
  · intro a ha
    rcases List.mem_append.mp ha with ha | ha
    · rcases List.mem_pair.mp ha with rfl | rfl <;> exact ⟨_, rfl⟩
    · obtain ⟨u, -, rfl⟩ := List.mem_map.mp ha
      exact ⟨_, rfl⟩
  · intro a ha
    refine ⟨?_, id⟩
    rcases List.mem_append.mp ha with ha | ha
    · rcases List.mem_pair.mp ha with rfl | rfl <;> simp [written]
    · obtain ⟨u, -, rfl⟩ := List.mem_map.mp ha
      simp [written]
  · intro a
    rw [List.mem_append, List.mem_append]
    simp [written, cleared, processingDocument, newWebpage, nullable, or_assoc]

/-- A manual sync clears the error of the last one, and the error of a document that was never
published; it touches no other field. -/
theorem enqueue_takes {now : Time} {documentId userId : Uuid} {answer : Option WebpageDetail}
    (h : (Webpages.enqueue .plain now db documentId userId).result = .ok answer) :
    (Update.ofList
      (if (select db documentId userId).isSome then
        cleared (.syncError documentId) ::
          if hashDiffers db documentId none then [] else [cleared (.error documentId)]
      else []) (fun _ => False)).Takes (column db)
      (column (Webpages.enqueue .plain now db documentId userId).db) := by
  unfold Webpages.enqueue at h ⊢
  rcases Outcome.afterCommit_cases db (enqueueTransaction now db documentId userId)
    (committedDetail .plain) with ⟨e, -, ho⟩ | ⟨rows, db', ht, ho⟩
  · rw [ho] at h
    cases h
  · rw [ho]
    obtain ⟨_, -, ht⟩ := bind_eq_ok.mp ht
    cases hselect : select db documentId userId with
    | none =>
        rw [hselect] at ht
        cases pure_eq_ok.mp ht
        exact Update.takes_nil (fun _ h => h) _
    | some found =>
        obtain ⟨d, p⟩ := found
        rw [hselect] at ht
        obtain ⟨-, hv⟩ := select_eq_some_iff.mp hselect
        dsimp only at ht
        split at ht
        · cases ht
        cases pure_eq_ok.mp ht
        rw [Option.isSome_some, if_pos rfl]
        have hname : (enqueued now d p).1.name = d.name := by
          unfold enqueued
          split <;> rfl
        refine takes_updateRows (d := (enqueued now d p).1) (p := (enqueued now d p).2) hv
          ((enqueued_id now d p).trans (viewOf_document_id hv)) (viewOf_page_id hv) hname rfl ?_ ?_
          (fun _ => rfl) ?_
        · intro a ha
          rcases List.mem_cons.mp ha with rfl | ha
          · exact .inl rfl
          · split at ha
            · cases ha
            · next hsame =>
                cases List.mem_singleton.mp ha
                have hnone : p.contentHash = none := by
                  simpa using mt (hashDiffers_of_viewOf hv none).mpr hsame
                refine .inr (.inr ?_)
                simp [enqueued, hnone, cleared, nullable]
        · intro hnone
          exact absurd List.mem_cons_self (hnone _)
        · intro hnone
          have hdiffers : p.contentHash ≠ none := by
            refine (hashDiffers_of_viewOf hv none).mp ?_
            by_contra hsame
            refine hnone (.value .null) (List.mem_cons_of_mem _ ?_)
            rw [if_neg hsame]
            exact List.mem_singleton_self _
          unfold enqueued
          rw [if_neg hdiffers]

/-- A switch writes nothing private. -/
theorem autoSyncSet_private (now : Time) (d : Document) (p : DocumentWebpage) (autoSync : Bool) :
    (autoSyncSet now d p autoSync).1.name = d.name ∧
      (autoSyncSet now d p autoSync).2.urls = p.urls ∧
      (autoSyncSet now d p autoSync).2.syncError = p.syncError ∧
      (autoSyncSet now d p autoSync).2.content = p.content ∧
      (autoSyncSet now d p autoSync).1.error = d.error := by
  unfold autoSyncSet
  dsimp only
  split
  · exact ⟨rfl, rfl, rfl, rfl, rfl⟩
  · split <;> exact ⟨rfl, rfl, rfl, rfl, rfl⟩

theorem setAutoSync_takes {now : Time} {documentId userId : Uuid} {autoSync : Bool}
    {answer : Option WebpageDetail}
    (h : (Webpages.setAutoSync .plain now db documentId userId autoSync).result = .ok answer) :
    (Update.ofList [] (fun _ => False)).Takes (column db)
      (column (Webpages.setAutoSync .plain now db documentId userId autoSync).db) := by
  unfold Webpages.setAutoSync at h ⊢
  rcases Outcome.afterCommit_cases db (setAutoSyncTransaction now db documentId userId autoSync)
    (committedDetail .plain) with ⟨e, -, ho⟩ | ⟨rows, db', ht, ho⟩
  · rw [ho] at h
    cases h
  · rw [ho]
    rcases setAutoSyncTransaction_ok ht with ⟨-, rfl⟩ | ⟨v, hv, -, -, rfl⟩
    · exact Update.takes_nil (fun _ h => h) _
    · obtain ⟨hd, hp⟩ := autoSyncSet_id now v.document v.page autoSync
      obtain ⟨hname, hurls, hsync, hcontent, herror⟩ :=
        autoSyncSet_private now v.document v.page autoSync
      exact takes_updateRows hv (hd.trans (viewOf_document_id hv)) (hp.trans (viewOf_page_id hv))
        hname hurls (fun _ ha => absurd ha List.not_mem_nil) (fun _ => hsync) (fun _ => hcontent)
        (fun _ => herror)

theorem claim_takes {token documentId owner : Uuid} {now : Time} {claim : Option WebpageClaim}
    (h : claimTransaction .plain token now db documentId owner = .ok (claim, db')) :
    (Update.ofList (if claim.isSome then [cleared (.syncError documentId)] else [])
      (fun _ => False)).Takes (column db) (column db') := by
  rcases claimTransaction_ok h with ⟨rfl, rfl⟩ | ⟨v, urls, -, hv, -, -, -, rfl, rfl⟩
  · exact Update.takes_nil (fun _ h => h) _
  · rw [Option.isSome_some, if_pos rfl]
    refine takes_updateRows (d := (claimed token now v.document v.page).1)
      (p := (claimed token now v.document v.page).2) hv (viewOf_document_id hv)
      (viewOf_page_id hv) rfl rfl ?_ ?_ (fun _ => rfl) (fun _ => rfl)
    · intro a ha
      cases List.mem_singleton.mp ha
      exact .inl rfl
    · intro hnone
      exact absurd (List.mem_singleton_self _) (hnone _)

/-- A publication or a failure that the row no longer belongs to writes nothing. -/
theorem complete_takes_nothing {db : Database} {uuid4 : Nat → Uuid} {now : Time} {claim : WebpageClaim}
    {content contentHash error : Option String} {chunks : Option (List IngestChunk)}
    {embeddings : Option (List Embedding)} {removes : PrivateField → Prop}
    (hremoves : ∀ field, ¬removes field)
    (h : (Webpages.complete .plain uuid4 now db claim content contentHash chunks embeddings
      error).result ≠ .ok true) :
    (Update.ofList [] removes).Takes (column db)
      (column (Webpages.complete .plain uuid4 now db claim content contentHash chunks embeddings
        error).db) := by
  rcases complete_cases (Eq.refl (Webpages.complete .plain uuid4 now db claim content contentHash
    chunks embeddings error)) with ⟨hsame, -⟩ | ⟨htrue, -⟩
  · rw [hsame]
    exact Update.takes_nil hremoves _
  · exact absurd htrue h

/-- An accepted publication: both errors are cleared, and content and chunks written where the
hash differs from the stored one. -/
theorem finish_takes {uuid4 : Nat → Uuid} {now : Time} {claim : WebpageClaim}
    {content contentHash : String} {chunks : Option (List IngestChunk)}
    {embeddings : Option (List Embedding)}
    (h : completeTransaction .plain uuid4 now db claim (some content) (some contentHash) chunks
      embeddings none = .ok (true, db')) :
    (Update.ofList
      ([cleared (.error claim.documentId), cleared (.syncError claim.documentId)] ++
        if hashDiffers db claim.documentId (some contentHash) then
          written (.content claim.documentId) content ::
            chunkAssignments uuid4 claim.documentId (chunks.getD [])
        else [])
      (fun field => hashDiffers db claim.documentId (some contentHash) = true ∧
        field.chunkOf? = some claim.documentId)).Takes (column db) (column db') := by
  rcases completeTransaction_ok h with ⟨hfalse, -⟩ | ⟨-, -, v, hv, -, -, d, p, mid, hpublish, rfl⟩
  · cases hfalse
  obtain ⟨-, -, hd, hpages⟩ := publish_ok hpublish
  have hid : d.id = claim.documentId := by rw [hd, viewOf_document_id hv]
  have hname : d.name = v.document.name := by rw [hd]
  have herror : d.error = none := by rw [hd]
  rcases hpages with ⟨hhash, hmid, hp⟩ | ⟨cs, es, rows, stored, hhash, rfl, rfl, -, hrows, hstored,
    hinserted, hp⟩
  · have hdiffers : ¬hashDiffers db claim.documentId (some contentHash) = true := fun hdiffers =>
      (hashDiffers_of_viewOf hv _).mp hdiffers hhash
    have hpid : p.documentId = claim.documentId := by rw [hp, viewOf_page_id hv]
    have hurls : p.urls = v.page.urls := by rw [hp]
    have hcontent : p.content = v.page.content := by rw [hp]
    have htakes := takes_updateRows (d := { d with updatedAt := now })
      (p := closed now (some (v.page.contentHash ≠ some contentHash)) none p)
      (l := [cleared (.error claim.documentId), cleared (.syncError claim.documentId)])
      hv hid hpid hname hurls ?_ ?_ (fun _ => hcontent) ?_
    · rw [if_neg hdiffers, List.append_nil, hmid]
      exact htakes.congr (fun _ _ => Iff.rfl)
        (fun _ => iff_of_false (fun hremoves => hdiffers hremoves.1) id)
    · intro a ha
      rcases List.mem_pair.mp ha with rfl | rfl
      · exact .inr (.inr (by rw [herror]; rfl))
      · exact .inl rfl
    · intro hnone
      exact absurd (List.mem_cons_of_mem _ List.mem_cons_self) (hnone _)
    · intro hnone
      exact absurd List.mem_cons_self (hnone _)
  · cases hstored
    have hdiffers := (hashDiffers_of_viewOf hv (some contentHash)).mpr hhash
    have hpid : p.documentId = claim.documentId := by rw [hp, viewOf_page_id hv]
    have hurls : p.urls = v.page.urls := by rw [hp]
    have hcontent : p.content = content := by rw [hp]
    rw [viewOf_document_id hv] at hrows hinserted
    have hview := viewOf_replaceChunks
      (fun row hrow => ((chunkRows_plain hrows).1 row hrow).1) hinserted claim.documentId
    obtain ⟨hdocument, hpage, -⟩ := viewOf_eq_some_iff.mp hv
    have hmid : viewOf mid claim.documentId = some { v with chunks := rows } :=
      viewOf_eq_some_iff.mpr ⟨hview.1.trans hdocument, hview.2.1.trans hpage,
        hview.2.2.trans (if_pos rfl)⟩
    have htakes := takes_updateRows (d := { d with updatedAt := now })
      (p := closed now (some (v.page.contentHash ≠ some contentHash)) none p)
      (l := [cleared (.error claim.documentId), cleared (.syncError claim.documentId),
        written (.content claim.documentId) content])
      hmid hid hpid hname hurls ?_ ?_ ?_ ?_
    · rw [if_pos hdiffers]
      refine ((takes_replaceChunks hrows hinserted).seq htakes ?_ (apart_of_replaced ?_)
        (fun _ => List.mem_append)).congr ?_ (fun _ => and_iff_right hdiffers)
      · simp [cleared, written]
      · simp [cleared, written, PrivateField.chunkOf?]
      · intro field source
        simp only [Update.ofList, List.mem_append, List.mem_cons, Option.getD_some]
        tauto
    · intro a ha
      rcases List.mem_cons.mp ha with rfl | ha
      · exact .inr (.inr (by rw [herror]; rfl))
      rcases List.mem_pair.mp ha with rfl | rfl
      · exact .inl rfl
      · exact .inr (.inl (by rw [← hcontent]; rfl))
    · intro hnone
      exact absurd (List.mem_cons_of_mem _ List.mem_cons_self) (hnone _)
    · intro hnone
      exact absurd (List.mem_cons_of_mem _ (List.mem_cons_of_mem _ List.mem_cons_self)) (hnone _)
    · intro hnone
      exact absurd List.mem_cons_self (hnone _)

/-- An accepted failure: the sync error is written, and the error of a document that was never
published. -/
theorem fail_takes {uuid4 : Nat → Uuid} {now : Time} {claim : WebpageClaim} {error : String}
    (h : completeTransaction .plain uuid4 now db claim none none none none (some error) =
      .ok (true, db')) :
    (Update.ofList
      (written (.syncError claim.documentId) error ::
        if hashDiffers db claim.documentId none then []
        else [written (.error claim.documentId) error])
      (fun _ => False)).Takes (column db) (column db') := by
  rcases completeTransaction_ok h with
    ⟨hfalse, -⟩ | ⟨-, -, v, hv, -, -, d, p, stored, hfailure, hstored, rfl⟩
  · cases hfalse
  cases hstored
  obtain ⟨hp, hd⟩ := recordFailure_ok hfailure
  have hpid : p.documentId = claim.documentId := by rw [hp, viewOf_page_id hv]
  have hurls : p.urls = v.page.urls := by rw [hp]
  have hcontent : p.content = v.page.content := by rw [hp]
  have hsync : ∀ s, s = written (.syncError claim.documentId) error →
      s = (.syncError claim.documentId,
        .value (nullable (closed now none (some error) p).syncError)) := fun _ hs => hs
  rcases hd with ⟨hhash, stored, hstored, hd⟩ | ⟨hhash, hd⟩
  · cases hstored
    have hsame : ¬hashDiffers db claim.documentId none = true := fun hdiffers =>
      (hashDiffers_of_viewOf hv none).mp hdiffers hhash
    have hid : d.id = claim.documentId := by rw [hd, viewOf_document_id hv]
    have hname : d.name = v.document.name := by rw [hd]
    have herror : d.error = some error := by rw [hd]
    rw [if_neg hsame]
    refine takes_updateRows (d := { d with updatedAt := now })
      (p := closed now none (some error) p) hv hid hpid hname hurls ?_ ?_ (fun _ => hcontent) ?_
    · intro a ha
      rcases List.mem_pair.mp ha with ha | rfl
      · exact .inl (hsync a ha)
      · exact .inr (.inr (by rw [herror]; rfl))
    · intro hnone
      exact absurd List.mem_cons_self (hnone _)
    · intro hnone
      exact absurd (List.mem_cons_of_mem _ List.mem_cons_self) (hnone _)
  · have hdiffers := (hashDiffers_of_viewOf hv none).mpr hhash
    have hid : d.id = claim.documentId := by rw [hd, viewOf_document_id hv]
    have hname : d.name = v.document.name := by rw [hd]
    have herror : d.error = v.document.error := by rw [hd]
    rw [if_pos hdiffers]
    refine takes_updateRows (d := { d with updatedAt := now })
      (p := closed now none (some error) p) hv hid hpid hname hurls ?_ ?_ (fun _ => hcontent)
      (fun _ => herror)
    · intro a ha
      exact .inl (hsync a (List.mem_singleton.mp ha))
    · intro hnone
      exact absurd List.mem_cons_self (hnone _)

/-- A publication of a file document: its error is cleared, and its chunks are replaced. -/
theorem replace_takes {uuid4 : Nat → Uuid} {now : Time} {documentId : Uuid}
    {chunks : List IngestChunk} {embeddings : List Embedding}
    (h : replaceTransaction .plain uuid4 now db documentId chunks embeddings = .ok ((), db')) :
    (Update.ofList (cleared (.error documentId) :: chunkAssignments uuid4 documentId chunks)
      (fun field => field.chunkOf? = some documentId)).Takes (column db) (column db') := by
  obtain ⟨d, hrequired, h⟩ := bind_eq_ok.mp h
  obtain ⟨rows, hrows, h⟩ := bind_eq_ok.mp h
  obtain ⟨mid, hinserted, h⟩ := bind_eq_ok.mp h
  cases pure_eq_ok.mp h
  obtain ⟨hd, -⟩ := requireDocument_ok hrequired
  obtain rfl : d.id = documentId := Database.document?_id hd
  have hmid : mid.document? d.id = some d := (viewOf_replaceChunks
    (fun row hrow => ((chunkRows_plain hrows).1 row hrow).1) hinserted d.id).1.trans hd
  have hsettled := takes_updateDocument (d := settledDocument d .ready none now) hmid rfl
  refine ((takes_replaceChunks hrows hinserted).seq hsettled ?_ (apart_of_replaced ?_)
    (fun _ => List.mem_append)).congr ?_ (fun _ => Iff.rfl)
  · simp
  · simp [PrivateField.chunkOf?, settledDocument]
  · intro field source
    simp only [Update.ofList, List.mem_append, List.mem_cons, List.not_mem_nil, or_false]
    exact or_comm

/-- A document that is settled with this error. -/
theorem settled_takes {d : Document} {documentId : Uuid} (hd : db.document? documentId = some d)
    (status : DocumentStatus) (error : Option String) (now : Time) :
    (Update.ofList [(PrivateField.error documentId, Source.value (nullable error))]
      (fun _ => False)).Takes (column db)
      (column (db.updateDocument (settledDocument d status error now))) := by
  obtain rfl : d.id = documentId := Database.document?_id hd
  exact takes_updateDocument (d := settledDocument d status error now) hd rfl

/-- New embeddings: the error is cleared where the document was found. -/
theorem replaceEmbeddings_takes {now : Time} {documentId userId : Uuid}
    {embeddings : List Embedding} {done : Bool}
    (h : replaceEmbeddingsTransaction now db documentId userId embeddings = .ok (done, db')) :
    (Update.ofList (if done then [cleared (.error documentId)] else []) (fun _ => False)).Takes
      (column db) (column db') := by
  obtain ⟨_, -, h⟩ := bind_eq_ok.mp h
  split at h
  · cases pure_eq_ok.mp h
    exact Update.takes_nil (fun _ h => h) _
  · next d hd =>
      dsimp only at h
      split at h
      · cases h
      cases pure_eq_ok.mp h
      have hd' : (db.rewriteChunks (reembedded ((orderedChunks db documentId).zip embeddings))
          (reembedded_id _) (reembedded_documentId _)).document? documentId = some d :=
        (reindexable_eq_some hd).1
      have hsettled := settled_takes hd' .ready none now
      rwa [column_rewriteChunks] at hsettled

/-- A failed reindexing: the error is written where the document was found. -/
theorem markReindexFailed_takes {now : Time} {documentId userId : Uuid} {error : String}
    {done : Bool}
    (h : markReindexFailedTransaction .plain now db documentId userId error = .ok (done, db')) :
    (Update.ofList (if done then [written (.error documentId) (truncate error 4000)] else [])
      (fun _ => False)).Takes (column db) (column db') := by
  obtain ⟨_, -, h⟩ := bind_eq_ok.mp h
  split at h
  · cases pure_eq_ok.mp h
    exact Update.takes_nil (fun _ h => h) _
  · next d hd =>
      obtain ⟨stored, hstored, h⟩ := bind_eq_ok.mp h
      cases hstored
      cases pure_eq_ok.mp h
      exact settled_takes (reindexable_eq_some hd).1 .failed (some (truncate error 4000)) now

/-- A failed ingest: the error is written. -/
theorem markFailed_takes {now : Time} {documentId : Uuid} {error : String}
    (h : markFailedTransaction .plain now db documentId error = .ok ((), db')) :
    (Update.ofList [written (.error documentId) (truncate error 4000)] (fun _ => False)).Takes
      (column db) (column db') := by
  obtain ⟨d, hrequired, h⟩ := bind_eq_ok.mp h
  obtain ⟨stored, hstored, h⟩ := bind_eq_ok.mp h
  cases hstored
  cases pure_eq_ok.mp h
  exact settled_takes (requireDocument_ok hrequired).1 .failed (some (truncate error 4000)) now

/-- An outage: the machine code is written. -/
theorem markStorageUnavailable_takes {now : Time} {documentId : Uuid}
    (h : markStorageUnavailableTransaction now db documentId = .ok ((), db')) :
    (Update.ofList [written (.error documentId) storageUnavailable] (fun _ => False)).Takes
      (column db) (column db') := by
  obtain ⟨d, hrequired, h⟩ := bind_eq_ok.mp h
  cases pure_eq_ok.mp h
  exact settled_takes (requireDocument_ok hrequired).1 .failed (some storageUnavailable) now

end Calls

/-- Every accepted call on a store in the clear takes the update that it declares. -/
theorem ServiceCall.takes (call : ServiceCall) {value : ServiceValue}
    (h : (call.exec .plain db).result = .ok value) :
    (call.update db (.ok value)).Takes (column db) (column (call.exec .plain db).db) := by
  cases call with
  | createDocument documentId now userId knowledgeKey name mime =>
      obtain ⟨record, hrecord, -⟩ := ok_of_mapOutcome h
      exact createDocument_takes hrecord
  | createWebpage lib documentId now userId knowledgeKey name urls autoSync =>
      obtain ⟨record, hrecord, -⟩ := ok_of_mapOutcome h
      exact createWebpage_takes (Outcome.ok_of_result hrecord)
  | enqueue now documentId userId =>
      obtain ⟨answer, hanswer, -⟩ := ok_of_mapOutcome h
      exact enqueue_takes hanswer
  | setAutoSync now documentId userId autoSync =>
      obtain ⟨answer, hanswer, -⟩ := ok_of_mapOutcome h
      exact setAutoSync_takes hanswer
  | claimWebpage token now documentId owner =>
      obtain ⟨claim, hclaim, rfl⟩ := ok_of_mapOutcome h
      exact claim_takes (Outcome.ok_of_result hclaim)
  | finish uuid4 now claim content contentHash chunks embeddings =>
      obtain ⟨done, hdone, rfl⟩ := ok_of_mapOutcome h
      cases done with
      | false =>
          refine complete_takes_nothing (fun _ hremoves => ?_) (hdone.trans_ne (by simp))
          cases hremoves.1
      | true =>
          obtain ⟨-, hne⟩ | ⟨-, ht⟩ := complete_cases (Eq.refl (Webpages.finish .plain uuid4 now db
            claim content contentHash chunks embeddings))
          · exact absurd hdone hne
          · exact (finish_takes ht).congr (fun _ _ => Iff.rfl) (fun _ => and_iff_right rfl)
  | fail now claim error =>
      obtain ⟨done, hdone, rfl⟩ := ok_of_mapOutcome h
      cases done with
      | false => exact complete_takes_nothing (fun _ h => h) (hdone.trans_ne (by simp))
      | true =>
          obtain ⟨-, hne⟩ | ⟨-, ht⟩ := complete_cases (Eq.refl (Webpages.fail .plain now db claim
            error))
          · exact absurd hdone hne
          · exact fail_takes ht
  | replaceChunks uuid4 now documentId chunks embeddings =>
      obtain ⟨_, hdone, -⟩ := ok_of_mapOutcome h
      exact replace_takes (Outcome.ok_of_result hdone)
  | markFailed now documentId error =>
      obtain ⟨_, hdone, -⟩ := ok_of_mapOutcome h
      exact markFailed_takes (Outcome.ok_of_result hdone)
  | markStorageUnavailable now documentId =>
      obtain ⟨_, hdone, -⟩ := ok_of_mapOutcome h
      exact markStorageUnavailable_takes (Outcome.ok_of_result hdone)
  | replaceEmbeddings now documentId userId embeddings =>
      obtain ⟨done, hdone, rfl⟩ := ok_of_mapOutcome h
      exact replaceEmbeddings_takes (Outcome.ok_of_result hdone)
  | markReindexFailed now documentId userId error =>
      obtain ⟨done, hdone, rfl⟩ := ok_of_mapOutcome h
      exact markReindexFailed_takes (Outcome.ok_of_result hdone)
  | createRevision uuid4 revisionId now userId selected =>
      obtain ⟨record, hrecord, -⟩ := ok_of_mapOutcome h
      exact takes_createRevision (Outcome.ok_of_result hrecord)
  | deleteDocument documentId userId =>
      obtain ⟨done, hdone, rfl⟩ := ok_of_mapOutcome h
      obtain ⟨-, hdb, hflag⟩ := deleteTransaction_ok (Outcome.ok_of_result hdone)
      have htakes := takes_deleteDocument db documentId userId
      rw [← hdb, ← hflag] at htakes
      exact htakes

end PortRag.Service
