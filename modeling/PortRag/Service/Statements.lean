import PortRag.Service.Plaintext

set_option autoImplicit false

/-!
# Statements on the plaintext

Each writing statement commutes with `plaintext` and keeps a database sealed, when what it
writes is sealed.  The owners that the bindings name do not change under a statement: a
document keeps its owner, and a new document or revision has no rows yet.
-/

namespace PortRag.Db

open PortRag.Foundation PortRag.Security

namespace Database

variable {opens : Opens} {db db' : Database}

/-! ## Rows whose owner stays -/

theorem plaintext_chunks_congr (hrows : db'.chunks = db.chunks)
    (h : ∀ c ∈ db.chunks.rows, db'.documentOwner c.documentId = db.documentOwner c.documentId) :
    (db'.plaintext opens).chunks = (db.plaintext opens).chunks := by
  simp only [plaintext_chunks, hrows]
  apply Table.rewrite_congr
  intro c hc
  rw [h c hc]

theorem plaintext_webpages_congr (hrows : db'.webpages = db.webpages)
    (h : ∀ p ∈ db.webpages.rows,
      db'.documentOwner p.documentId = db.documentOwner p.documentId) :
    (db'.plaintext opens).webpages = (db.plaintext opens).webpages := by
  simp only [plaintext_webpages, hrows]
  apply Table.rewrite_congr
  intro p hp
  rw [h p hp]

theorem plaintext_revisionChunks_congr (hrows : db'.revisionChunks = db.revisionChunks)
    (h : ∀ c ∈ db.revisionChunks.rows,
      db'.revisionOwner c.revisionId = db.revisionOwner c.revisionId) :
    (db'.plaintext opens).revisionChunks = (db.plaintext opens).revisionChunks := by
  simp only [plaintext_revisionChunks, hrows]
  apply Table.rewrite_congr
  intro c hc
  rw [h c hc]

/-! ## Updates of single rows -/

section UpdateDocument

variable {d old : Document}

theorem documentOwner_updateDocument (hold : db.document? d.id = some old)
    (howner : d.userId = old.userId) (id : Uuid) :
    (db.updateDocument d).documentOwner id = db.documentOwner id := by
  unfold documentOwner
  rw [document?_updateDocument hold]
  split
  · next hid =>
      subst hid
      rw [hold]
      simp [howner]
  · rfl

theorem plaintext_updateDocument (hold : db.document? d.id = some old)
    (howner : d.userId = old.userId) :
    (db.updateDocument d).plaintext opens = (db.plaintext opens).updateDocument (d.reveal opens) := by
  have hsame := documentOwner_updateDocument hold howner
  apply ext
  · exact Table.rewrite_put _ _ (Document.reveal_id opens) _
  · exact plaintext_chunks_congr rfl (fun c _ => hsame _)
  · exact plaintext_webpages_congr rfl (fun p _ => hsame _)
  all_goals rfl

theorem Sealed.updateDocument (h : db.Sealed opens) (hold : db.document? d.id = some old)
    (howner : d.userId = old.userId) (hd : d.Sealed opens) :
    (db.updateDocument d).Sealed opens := by
  have hsame := documentOwner_updateDocument hold howner
  constructor
  · intro r hr
    obtain ⟨o, ho, rfl⟩ := List.mem_map.mp hr
    split
    · exact hd
    · exact h.documents o ho
  · intro c hc
    rw [hsame]
    exact h.chunks c hc
  · intro p hp
    rw [hsame]
    exact h.webpages p hp
  · exact h.revisionChunks

end UpdateDocument

theorem plaintext_updateWebpage (db : Database) (p : DocumentWebpage) :
    (db.updateWebpage p).plaintext opens =
      (db.plaintext opens).updateWebpage (p.reveal opens (db.documentOwner p.documentId)) := by
  apply ext
  case hw => exact Table.rewrite_put _ _ (fun q => q.reveal_documentId opens _) _
  all_goals rfl

theorem Sealed.updateWebpage (h : db.Sealed opens) {p : DocumentWebpage}
    (hp : p.Sealed opens (db.documentOwner p.documentId)) : (db.updateWebpage p).Sealed opens := by
  constructor
  · exact h.documents
  · exact h.chunks
  · intro q hq
    obtain ⟨o, ho, rfl⟩ := List.mem_map.mp hq
    split
    · exact hp
    · exact h.webpages o ho
  · exact h.revisionChunks

/-! ## Chunk rows -/

theorem plaintext_deleteChunks (db : Database) (id : Uuid) :
    (db.deleteChunks id).plaintext opens = (db.plaintext opens).deleteChunks id := by
  apply ext
  case hc => exact Table.rewrite_keep _ _ (fun c => c.reveal_id opens _) (fun c _ => rfl)
  all_goals rfl

theorem Sealed.deleteChunks (h : db.Sealed opens) (id : Uuid) :
    (db.deleteChunks id).Sealed opens := by
  constructor
  · exact h.documents
  · exact fun c hc => h.chunks c (List.mem_of_mem_filter hc)
  · exact h.webpages
  · exact h.revisionChunks

/-- The rows of one insert in the clear, each under the owner of its document. -/
def revealChunks (opens : Opens) (db : Database) (rows : List DocumentChunk) :
    List DocumentChunk :=
  rows.map (fun c => c.reveal opens (db.documentOwner c.documentId))

/-- Inserting rows of chunks and revealing them may be done in either order: the constraints are
about columns that are not encrypted. -/
theorem insertChunks_plaintext (db : Database) (rows : List DocumentChunk) :
    (db.plaintext opens).insertChunks (revealChunks opens db rows) =
      (db.insertChunks rows).map (plaintext opens) := by
  have htable : (db.plaintext opens).chunks.insertAll? (revealChunks opens db rows) =
      (db.chunks.insertAll? rows).map (fun t => t.rewrite
        (fun c => c.reveal opens (db.documentOwner c.documentId)) (fun c => c.reveal_id opens _)) :=
    Table.insertAll?_rewrite _ _ _ _
  have hkeys : (∀ c ∈ revealChunks opens db rows,
      ∃ d ∈ (db.plaintext opens).documents.rows, d.id = c.documentId) ↔
      ∀ c ∈ rows, ∃ d ∈ db.documents.rows, d.id = c.documentId := by
    simp [revealChunks]
  unfold insertChunks
  split
  · next hnone =>
      rw [htable] at hnone
      split
      · rfl
      · next hsome =>
          rw [hsome] at hnone
          cases hnone
  · next t ht =>
      rw [htable] at ht
      obtain ⟨u, hu, rfl⟩ := Option.map_eq_some_iff.mp ht
      by_cases hfk : ∀ c ∈ rows, ∃ d ∈ db.documents.rows, d.id = c.documentId
      · rw [dif_pos (hkeys.mpr hfk)]
        split
        · next hnone =>
            rw [hu] at hnone
            cases hnone
        · next u' hu' =>
            obtain rfl : u = u' := Option.some.inj (hu.symm.trans hu')
            rw [dif_pos hfk]
            rfl
      · rw [dif_neg (fun h => hfk (hkeys.mp h))]
        split
        · next hnone =>
            rw [hu] at hnone
            cases hnone
        · rw [dif_neg hfk]
          rfl

theorem Sealed.insertChunks (h : db.Sealed opens) {rows : List DocumentChunk}
    (hrows : ∀ c ∈ rows, c.Sealed opens (db.documentOwner c.documentId))
    (hdb : db.insertChunks rows = .ok db') : db'.Sealed opens := by
  obtain ⟨t, ht, hfk, rfl⟩ := insertChunks_ok hdb
  constructor
  · exact h.documents
  · intro c hc
    rw [withChunks_chunks, ht, List.mem_append] at hc
    exact hc.elim (h.chunks c) (hrows c)
  · exact h.webpages
  · exact h.revisionChunks

theorem plaintext_rewriteChunks {f : DocumentChunk → DocumentChunk}
    (hid : ∀ c, (f c).id = c.id) (hdoc : ∀ c, (f c).documentId = c.documentId)
    {g : DocumentChunk → DocumentChunk} (gid : ∀ c, (g c).id = c.id)
    (gdoc : ∀ c, (g c).documentId = c.documentId)
    (hfg : ∀ c owner, g (c.reveal opens owner) = (f c).reveal opens owner) :
    (db.rewriteChunks f hid hdoc).plaintext opens =
      (db.plaintext opens).rewriteChunks g gid gdoc := by
  apply ext
  case hc =>
    apply Table.ext
    simp only [plaintext_chunks, rewriteChunks_chunks, Table.rewrite_rows, List.map_map]
    apply List.map_congr_left
    intro c _
    simp only [Function.comp_apply, hfg, hdoc]
    rfl
  all_goals rfl

theorem Sealed.rewriteChunks (h : db.Sealed opens) {f : DocumentChunk → DocumentChunk}
    (hid : ∀ c, (f c).id = c.id) (hdoc : ∀ c, (f c).documentId = c.documentId)
    (hf : ∀ c owner, c.Sealed opens owner → (f c).Sealed opens owner) :
    (db.rewriteChunks f hid hdoc).Sealed opens := by
  constructor
  · exact h.documents
  · intro c hc
    obtain ⟨old, hold, rfl⟩ := List.mem_map.mp hc
    rw [hdoc]
    exact hf old _ (h.chunks old hold)
  · exact h.webpages
  · exact h.revisionChunks

/-! ## Documents and webpages -/

/-- The owner of a document that exists stays when another one is added. -/
theorem documentOwner_withDocument {t : Table Uuid Document Document.id} {d : Document}
    (ht : t.rows = db.documents.rows ++ [d]) {id : Uuid}
    (hid : ∃ old ∈ db.documents.rows, old.id = id) :
    (db.withDocument t d ht).documentOwner id = db.documentOwner id := by
  obtain ⟨old, hold, rfl⟩ := hid
  have hfind : db.document? old.id = some old := Table.find?_of_mem hold
  have hfind' : (db.withDocument t d ht).document? old.id = some old :=
    Table.find?_append_of_some ht hfind
  rw [documentOwner_of hfind, documentOwner_of hfind']

theorem plaintext_withDocument {t : Table Uuid Document Document.id} {d : Document}
    (ht : t.rows = db.documents.rows ++ [d])
    (ht' : (t.rewrite (Document.reveal opens) (Document.reveal_id opens)).rows =
      (db.plaintext opens).documents.rows ++ [d.reveal opens]) :
    (db.withDocument t d ht).plaintext opens =
      (db.plaintext opens).withDocument
        (t.rewrite (Document.reveal opens) (Document.reveal_id opens)) (d.reveal opens) ht' := by
  apply ext
  case hc =>
    exact plaintext_chunks_congr rfl
      (fun c hc => documentOwner_withDocument ht (db.chunks_fk c hc))
  case hw =>
    exact plaintext_webpages_congr rfl
      (fun p hp => documentOwner_withDocument ht (db.webpages_fk p hp))
  all_goals rfl

/-- Inserting a document and revealing it may be done in either order. -/
theorem insertDocument_plaintext (db : Database) (d : Document) :
    (db.plaintext opens).insertDocument (d.reveal opens) =
      (db.insertDocument d).map (plaintext opens) := by
  have htaken : ((db.plaintext opens).documents.rows.any fun old =>
      old.userId = (d.reveal opens).userId ∧ old.knowledgeKey = (d.reveal opens).knowledgeKey) =
      db.documents.rows.any fun old => old.userId = d.userId ∧ old.knowledgeKey = d.knowledgeKey := by
    rw [plaintext_documents, Table.rewrite_rows, List.any_map]
    rfl
  have htable : (db.plaintext opens).documents.insert? (d.reveal opens) =
      (db.documents.insert? d).map
        (fun t => t.rewrite (Document.reveal opens) (Document.reveal_id opens)) :=
    Table.insert?_rewrite _ _ _ _
  unfold insertDocument
  rw [htaken]
  by_cases hkey : validKnowledgeKey d.knowledgeKey = true
  · have hkey' : validKnowledgeKey (d.reveal opens).knowledgeKey = true := hkey
    rw [if_neg (not_not_intro hkey), if_neg (not_not_intro hkey')]
    split
    · rfl
    · split
      · next hnone =>
          rw [htable] at hnone
          split
          · rfl
          · next hsome =>
              rw [hsome] at hnone
              cases hnone
      · next t ht =>
          rw [htable] at ht
          obtain ⟨u, hu, rfl⟩ := Option.map_eq_some_iff.mp ht
          split
          · next hnone =>
              rw [hu] at hnone
              cases hnone
          · next u' hu' =>
              obtain rfl : u = u' := Option.some.inj (hu.symm.trans hu')
              exact congrArg Except.ok (plaintext_withDocument _ _).symm
  · have hkey' : ¬validKnowledgeKey (d.reveal opens).knowledgeKey = true := hkey
    rw [if_pos hkey, if_pos hkey']
    rfl

theorem Sealed.insertDocument (h : db.Sealed opens) {d : Document} (hd : d.Sealed opens)
    (hdb : db.insertDocument d = .ok db') : db'.Sealed opens := by
  obtain ⟨_, t, ht, rfl⟩ := insertDocument_ok hdb
  constructor
  · intro r hr
    rw [withDocument_documents, ht, List.mem_append, List.mem_singleton] at hr
    rcases hr with hr | rfl
    · exact h.documents r hr
    · exact hd
  · intro c hc
    rw [documentOwner_withDocument ht (db.chunks_fk c hc)]
    exact h.chunks c hc
  · intro p hp
    rw [documentOwner_withDocument ht (db.webpages_fk p hp)]
    exact h.webpages p hp
  · exact h.revisionChunks

/-- Inserting the row of a webpage and revealing it may be done in either order. -/
theorem insertWebpage_plaintext (db : Database) (p : DocumentWebpage) :
    (db.plaintext opens).insertWebpage (p.reveal opens (db.documentOwner p.documentId)) =
      (db.insertWebpage p).map (plaintext opens) := by
  have htable : (db.plaintext opens).webpages.insert?
      (p.reveal opens (db.documentOwner p.documentId)) = (db.webpages.insert? p).map
        (fun t => t.rewrite (fun q => q.reveal opens (db.documentOwner q.documentId))
          (fun q => q.reveal_documentId opens _)) :=
    Table.insert?_rewrite _ _ (fun q => q.reveal_documentId opens _) _
  have hkeys : (∃ d ∈ (db.plaintext opens).documents.rows,
      d.id = (p.reveal opens (db.documentOwner p.documentId)).documentId) ↔
      ∃ d ∈ db.documents.rows, d.id = p.documentId := by
    simp
  unfold insertWebpage
  split
  · next hnone =>
      rw [htable] at hnone
      split
      · rfl
      · next hsome =>
          rw [hsome] at hnone
          cases hnone
  · next t ht =>
      rw [htable] at ht
      obtain ⟨u, hu, rfl⟩ := Option.map_eq_some_iff.mp ht
      by_cases hfk : ∃ d ∈ db.documents.rows, d.id = p.documentId
      · rw [dif_pos (hkeys.mpr hfk)]
        split
        · next hnone =>
            rw [hu] at hnone
            cases hnone
        · next u' hu' =>
            obtain rfl : u = u' := Option.some.inj (hu.symm.trans hu')
            rw [dif_pos hfk]
            rfl
      · rw [dif_neg (fun h => hfk (hkeys.mp h))]
        split
        · next hnone =>
            rw [hu] at hnone
            cases hnone
        · rw [dif_neg hfk]
          rfl

theorem Sealed.insertWebpage (h : db.Sealed opens) {p : DocumentWebpage}
    (hp : p.Sealed opens (db.documentOwner p.documentId))
    (hdb : db.insertWebpage p = .ok db') : db'.Sealed opens := by
  obtain ⟨t, ht, hfk, rfl⟩ := insertWebpage_ok hdb
  constructor
  · exact h.documents
  · exact h.chunks
  · intro q hq
    rw [withWebpage_webpages, ht, List.mem_append, List.mem_singleton] at hq
    rcases hq with hq | rfl
    · exact h.webpages q hq
    · exact hp
  · exact h.revisionChunks

/-- The owner of a document that a delete keeps. -/
theorem documentOwner_keepDocuments {keep : Document → Bool} {id : Uuid}
    (h : (db.document? id).any keep = true) :
    (db.keepDocuments keep).documentOwner id = db.documentOwner id := by
  obtain ⟨d, hd, hp⟩ := (Option.any_eq_true _ _).mp h
  have hkept : (db.keepDocuments keep).document? id = some d := by
    rw [document?_keepDocuments, hd, Option.filter_some, if_pos hp]
  rw [documentOwner_of hd, documentOwner_of hkept]

/-- A deletion by a condition on clear columns deletes the same rows in the clear, and the same rows
go by cascade. -/
theorem plaintext_keepDocuments {keep : Document → Bool}
    (hkeep : ∀ d, keep (d.reveal opens) = keep d) :
    (db.keepDocuments keep).plaintext opens = (db.plaintext opens).keepDocuments keep := by
  have hany : ∀ id, ((db.plaintext opens).document? id).any keep = (db.document? id).any keep := by
    intro id
    rw [document?_plaintext]
    cases db.document? id with
    | none => rfl
    | some d => exact hkeep d
  apply ext
  · exact Table.rewrite_keep _ _ (Document.reveal_id opens) (fun d _ => hkeep d)
  · have hsame : ((db.keepDocuments keep).plaintext opens).chunks =
        (db.keepDocuments keep).chunks.rewrite
          (fun c => c.reveal opens (db.documentOwner c.documentId))
          (fun c => c.reveal_id opens _) := by
      rw [plaintext_chunks]
      apply Table.rewrite_congr
      intro c hc
      rw [documentOwner_keepDocuments (List.mem_filter.mp hc).2]
    rw [hsame]
    exact Table.rewrite_keep _ _ (fun c => c.reveal_id opens _) (fun c _ => hany c.documentId)
  · have hsame : ((db.keepDocuments keep).plaintext opens).webpages =
        (db.keepDocuments keep).webpages.rewrite
          (fun p => p.reveal opens (db.documentOwner p.documentId))
          (fun p => p.reveal_documentId opens _) := by
      rw [plaintext_webpages]
      apply Table.rewrite_congr
      intro p hp
      rw [documentOwner_keepDocuments (List.mem_filter.mp hp).2]
    rw [hsame]
    exact Table.rewrite_keep _ _ (fun p => p.reveal_documentId opens _)
      (fun p _ => hany p.documentId)
  all_goals rfl

theorem Sealed.keepDocuments (h : db.Sealed opens) (keep : Document → Bool) :
    (db.keepDocuments keep).Sealed opens := by
  constructor
  · exact fun d hd => h.documents d (List.mem_of_mem_filter hd)
  · intro c hc
    obtain ⟨hmem, hkept⟩ := List.mem_filter.mp hc
    rw [documentOwner_keepDocuments hkept]
    exact h.chunks c hmem
  · intro p hp
    obtain ⟨hmem, hkept⟩ := List.mem_filter.mp hp
    rw [documentOwner_keepDocuments hkept]
    exact h.webpages p hmem
  · exact h.revisionChunks

theorem deleteDocument_plaintext (db : Database) (documentId userId : Uuid) :
    (db.plaintext opens).deleteDocument documentId userId =
      ((db.deleteDocument documentId userId).1.plaintext opens,
        (db.deleteDocument documentId userId).2) := by
  unfold deleteDocument
  refine Prod.ext ?_ ?_
  · exact (plaintext_keepDocuments (fun d => rfl)).symm
  · rw [plaintext_documents, Table.rewrite_rows, List.any_map]
    rfl

/-! ## Revisions -/

/-- The owner of a revision that exists stays when another one is added. -/
theorem revisionOwner_withRevision {t : Table Uuid KnowledgeRevision KnowledgeRevision.id}
    {r : KnowledgeRevision} (ht : t.rows = db.revisions.rows ++ [r]) {id : Uuid}
    (hid : ∃ old ∈ db.revisions.rows, old.id = id) :
    (db.withRevision t r ht).revisionOwner id = db.revisionOwner id := by
  obtain ⟨old, hold, rfl⟩ := hid
  have hfind : db.revisions.find? old.id = some old := Table.find?_of_mem hold
  have hfind' : (db.withRevision t r ht).revisions.find? old.id = some old :=
    Table.find?_append_of_some ht hfind
  rw [revisionOwner_of hfind, revisionOwner_of hfind']

/-- A row of `knowledge_revisions` is in the clear as it is. -/
theorem insertRevision_plaintext (db : Database) (r : KnowledgeRevision) :
    (db.plaintext opens).insertRevision r = (db.insertRevision r).map (plaintext opens) := by
  unfold insertRevision
  split
  · next hnone =>
      rw [plaintext_revisions] at hnone
      split
      · rfl
      · next hsome =>
          rw [hsome] at hnone
          cases hnone
  · next t ht =>
      rw [plaintext_revisions] at ht
      split
      · next hnone =>
          rw [ht] at hnone
          cases hnone
      · next u hu =>
          obtain rfl : t = u := Option.some.inj (ht.symm.trans hu)
          have hrows := (Table.insert?_eq_some ht).1
          have hfrozen : ((db.withRevision t r hrows).plaintext opens).revisionChunks =
              (db.plaintext opens).revisionChunks :=
            plaintext_revisionChunks_congr rfl (fun c hc =>
              revisionOwner_withRevision hrows (db.revisionChunks_fk c hc))
          refine congrArg Except.ok ?_
          apply ext
          case hrc => exact hfrozen.symm
          all_goals rfl

theorem Sealed.insertRevision (h : db.Sealed opens) {r : KnowledgeRevision}
    (hdb : db.insertRevision r = .ok db') : db'.Sealed opens := by
  obtain ⟨_, t, ht, rfl⟩ := insertRevision_ok hdb
  constructor
  · exact h.documents
  · exact h.chunks
  · exact h.webpages
  · intro c hc
    rw [revisionOwner_withRevision ht (db.revisionChunks_fk c hc)]
    exact h.revisionChunks c hc

/-- The frozen rows of one insert in the clear, each under the owner of its revision. -/
def revealFrozen (opens : Opens) (db : Database) (rows : List KnowledgeRevisionChunk) :
    List KnowledgeRevisionChunk :=
  rows.map (fun c => c.reveal opens (db.revisionOwner c.revisionId))

/-- Inserting frozen rows and revealing them may be done in either order. -/
theorem insertRevisionChunks_plaintext (db : Database) (rows : List KnowledgeRevisionChunk) :
    (db.plaintext opens).insertRevisionChunks (revealFrozen opens db rows) =
      (db.insertRevisionChunks rows).map (plaintext opens) := by
  have htable : (db.plaintext opens).revisionChunks.insertAll? (revealFrozen opens db rows) =
      (db.revisionChunks.insertAll? rows).map (fun t => t.rewrite
        (fun c => c.reveal opens (db.revisionOwner c.revisionId))
        (fun c => c.reveal_id opens _)) :=
    Table.insertAll?_rewrite _ _ _ _
  have hkeys : (∀ c ∈ revealFrozen opens db rows,
      ∃ r ∈ (db.plaintext opens).revisions.rows, r.id = c.revisionId) ↔
      ∀ c ∈ rows, ∃ r ∈ db.revisions.rows, r.id = c.revisionId := by
    simp [revealFrozen]
  unfold insertRevisionChunks
  split
  · next hnone =>
      rw [htable] at hnone
      split
      · rfl
      · next hsome =>
          rw [hsome] at hnone
          cases hnone
  · next t ht =>
      rw [htable] at ht
      obtain ⟨u, hu, rfl⟩ := Option.map_eq_some_iff.mp ht
      by_cases hfk : ∀ c ∈ rows, ∃ r ∈ db.revisions.rows, r.id = c.revisionId
      · rw [dif_pos (hkeys.mpr hfk)]
        split
        · next hnone =>
            rw [hu] at hnone
            cases hnone
        · next u' hu' =>
            obtain rfl : u = u' := Option.some.inj (hu.symm.trans hu')
            rw [dif_pos hfk]
            rfl
      · rw [dif_neg (fun h => hfk (hkeys.mp h))]
        split
        · next hnone =>
            rw [hu] at hnone
            cases hnone
        · rw [dif_neg hfk]
          rfl

theorem Sealed.insertRevisionChunks (h : db.Sealed opens) {rows : List KnowledgeRevisionChunk}
    (hrows : ∀ c ∈ rows, c.Sealed opens (db.revisionOwner c.revisionId))
    (hdb : db.insertRevisionChunks rows = .ok db') : db'.Sealed opens := by
  obtain ⟨t, ht, hfk, rfl⟩ := insertRevisionChunks_ok hdb
  constructor
  · exact h.documents
  · exact h.chunks
  · exact h.webpages
  · intro c hc
    rw [withRevisionChunks_revisionChunks, ht, List.mem_append] at hc
    exact hc.elim (h.revisionChunks c) (hrows c)

theorem memberAdmitted_plaintext (db : Database) (m : KnowledgeRevisionWebpage) :
    (db.plaintext opens).memberAdmitted m = db.memberAdmitted m := by
  unfold memberAdmitted
  rw [document?_plaintext, webpage?_plaintext, plaintext_revisions]
  cases db.document? m.documentId with
  | none => simp
  | some d => simp [Document.reveal]

/-- The members of a revision are in the clear as they are. -/
theorem insertRevisionWebpages_plaintext (db : Database)
    (rows : List KnowledgeRevisionWebpage) :
    (db.plaintext opens).insertRevisionWebpages rows =
      (db.insertRevisionWebpages rows).map (plaintext opens) := by
  have hadmitted : (rows.any fun m => !(db.plaintext opens).memberAdmitted m) =
      rows.any fun m => !db.memberAdmitted m := by
    simp only [memberAdmitted_plaintext]
  unfold insertRevisionWebpages
  rw [hadmitted]
  split
  · rfl
  · split
    · next hnone =>
        rw [plaintext_revisionWebpages] at hnone
        split
        · rfl
        · next hsome =>
            rw [hsome] at hnone
            cases hnone
    · next t ht =>
        rw [plaintext_revisionWebpages] at ht
        by_cases hfk : ∀ m ∈ rows, ∃ r ∈ db.revisions.rows, r.id = m.revisionId
        · have hfk' : ∀ m ∈ rows, ∃ r ∈ (db.plaintext opens).revisions.rows,
            r.id = m.revisionId := hfk
          rw [dif_pos hfk']
          split
          · next hnone =>
              rw [ht] at hnone
              cases hnone
          · next u hu =>
              obtain rfl : t = u := Option.some.inj (ht.symm.trans hu)
              rw [dif_pos hfk]
              rfl
        · have hfk' : ¬∀ m ∈ rows, ∃ r ∈ (db.plaintext opens).revisions.rows,
            r.id = m.revisionId := hfk
          rw [dif_neg hfk']
          split
          · next hnone =>
              rw [ht] at hnone
              cases hnone
          · rw [dif_neg hfk]
            rfl

theorem Sealed.insertRevisionWebpages (h : db.Sealed opens)
    {rows : List KnowledgeRevisionWebpage} (hdb : db.insertRevisionWebpages rows = .ok db') :
    db'.Sealed opens := by
  obtain ⟨t, ht, hfk, rfl⟩ := insertRevisionWebpages_ok hdb
  exact ⟨h.documents, h.chunks, h.webpages, h.revisionChunks⟩

end Database

end PortRag.Db
