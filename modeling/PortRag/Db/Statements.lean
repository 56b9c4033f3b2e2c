import PortRag.Db.Database
import Mathlib.Tactic.Simps.Basic

set_option autoImplicit false

/-!
# SQL statements

The writing statements of the service, each with what it leaves alone (the `simps`
lemmas) and what the reads see afterwards.
-/

namespace PortRag.Db

open PortRag.Foundation

namespace Database

/-! ## Updates of single rows -/

/-- `UPDATE documents` of the row with the identifier of `d`. -/
@[simps] def updateDocument (db : Database) (d : Document) : Database :=
  { db with
    documents := db.documents.put d
    chunks_fk := fun c hc => Table.exists_rewrite _ (db.chunks_fk c hc)
    webpages_fk := fun p hp => Table.exists_rewrite _ (db.webpages_fk p hp) }

/-- `UPDATE document_webpages` of the row with the document of `p`. -/
@[simps] def updateWebpage (db : Database) (p : DocumentWebpage) : Database :=
  { db with
    webpages := db.webpages.put p
    webpages_fk := by
      intro q hq
      obtain ⟨old, hold, rfl⟩ := List.mem_map.mp hq
      obtain ⟨d, hd, hid⟩ := db.webpages_fk old hold
      refine ⟨d, hd, hid.trans ?_⟩
      split
      · next h => exact h
      · rfl }

@[simp] theorem document?_updateWebpage (db : Database) (p : DocumentWebpage) (id : Uuid) :
    (db.updateWebpage p).document? id = db.document? id := rfl

@[simp] theorem webpage?_updateDocument (db : Database) (d : Document) (id : Uuid) :
    (db.updateDocument d).webpage? id = db.webpage? id := rfl

@[simp] theorem chunksOf_updateDocument (db : Database) (d : Document) (id : Uuid) :
    (db.updateDocument d).chunksOf id = db.chunksOf id := rfl

@[simp] theorem chunksOf_updateWebpage (db : Database) (p : DocumentWebpage) (id : Uuid) :
    (db.updateWebpage p).chunksOf id = db.chunksOf id := rfl

theorem document?_updateDocument {db : Database} {d old : Document}
    (h : db.document? d.id = some old) (id : Uuid) :
    (db.updateDocument d).document? id = if id = d.id then some d else db.document? id := by
  split
  · next hid => subst hid; exact Table.find?_put_self h
  · next hid => exact Table.find?_put_of_ne _ hid

theorem webpage?_updateWebpage {db : Database} {p old : DocumentWebpage}
    (h : db.webpage? p.documentId = some old) (id : Uuid) :
    (db.updateWebpage p).webpage? id = if id = p.documentId then some p else db.webpage? id := by
  split
  · next hid => subst hid; exact Table.find?_put_self h
  · next hid => exact Table.find?_put_of_ne _ hid

/-! ## Chunk rows -/

/-- `DELETE FROM chunks WHERE document_id = …`. -/
@[simps] def deleteChunks (db : Database) (documentId : Uuid) : Database :=
  { db with
    chunks := db.chunks.keep (fun c => c.documentId ≠ documentId)
    chunks_fk := fun c hc => db.chunks_fk c (List.mem_of_mem_filter hc) }

@[simp] theorem document?_deleteChunks (db : Database) (documentId id : Uuid) :
    (db.deleteChunks documentId).document? id = db.document? id := rfl

@[simp] theorem webpage?_deleteChunks (db : Database) (documentId id : Uuid) :
    (db.deleteChunks documentId).webpage? id = db.webpage? id := rfl

theorem chunksOf_deleteChunks (db : Database) (documentId id : Uuid) :
    (db.deleteChunks documentId).chunksOf id = if id = documentId then [] else db.chunksOf id := by
  simp only [chunksOf, deleteChunks_chunks, Table.keep_rows, List.filter_filter]
  split
  · next hid =>
      subst hid
      rw [List.filter_eq_nil_iff]
      intro c _
      simp
  · next hid =>
      apply List.filter_congr
      intro c _
      by_cases hc : c.documentId = id
      · simp [hc, hid]
      · simp [hc]

/-- The database with `rows` added to the chunk table. -/
@[simps] def withChunks (db : Database) (t : Table Uuid DocumentChunk DocumentChunk.id)
    (rows : List DocumentChunk) (ht : t.rows = db.chunks.rows ++ rows)
    (hfk : ∀ c ∈ rows, ∃ d ∈ db.documents.rows, d.id = c.documentId) : Database :=
  { db with
    chunks := t
    chunks_fk := by
      intro c hc
      rw [ht, List.mem_append] at hc
      exact hc.elim (db.chunks_fk c) (hfk c) }

/-- `INSERT INTO chunks`: refused when a key is taken or a document is missing. -/
def insertChunks (db : Database) (rows : List DocumentChunk) : Except Exc Database :=
  match h : db.chunks.insertAll? rows with
  | none => .error (.integrityError none (some "chunks_pkey"))
  | some t =>
      if hfk : ∀ c ∈ rows, ∃ d ∈ db.documents.rows, d.id = c.documentId then
        .ok (db.withChunks t rows (Table.insertAll?_rows h) hfk)
      else .error (.integrityError none (some "chunks_document_id_fkey"))

/-- What an accepted `INSERT INTO chunks` did. -/
theorem insertChunks_ok {db db' : Database} {rows : List DocumentChunk}
    (h : db.insertChunks rows = .ok db') :
    ∃ t ht hfk, db' = db.withChunks t rows ht hfk := by
  unfold insertChunks at h
  split at h
  · cases h
  · next t ht =>
      split at h
      · next hfk =>
          cases h
          exact ⟨t, Table.insertAll?_rows ht, hfk, rfl⟩
      · cases h

section WithChunks

variable {db : Database} {t : Table Uuid DocumentChunk DocumentChunk.id}
  {rows : List DocumentChunk} (ht : t.rows = db.chunks.rows ++ rows)
  (hfk : ∀ c ∈ rows, ∃ d ∈ db.documents.rows, d.id = c.documentId)

@[simp] theorem document?_withChunks (id : Uuid) :
    (db.withChunks t rows ht hfk).document? id = db.document? id := rfl

@[simp] theorem webpage?_withChunks (id : Uuid) :
    (db.withChunks t rows ht hfk).webpage? id = db.webpage? id := rfl

theorem chunksOf_withChunks (id : Uuid) :
    (db.withChunks t rows ht hfk).chunksOf id =
      db.chunksOf id ++ rows.filter (fun c => c.documentId = id) := by
  simp only [chunksOf, withChunks_chunks, ht, List.filter_append]

end WithChunks

/-- `UPDATE chunks`: rewrite rows by a function that keeps their key and document. -/
@[simps] def rewriteChunks (db : Database) (f : DocumentChunk → DocumentChunk)
    (hid : ∀ c, (f c).id = c.id) (hdoc : ∀ c, (f c).documentId = c.documentId) : Database :=
  { db with
    chunks := db.chunks.rewrite f hid
    chunks_fk := by
      intro c hc
      obtain ⟨old, hold, rfl⟩ := List.mem_map.mp hc
      rw [hdoc]
      exact db.chunks_fk old hold }

theorem chunksOf_rewriteChunks (db : Database) (f : DocumentChunk → DocumentChunk)
    (hid : ∀ c, (f c).id = c.id) (hdoc : ∀ c, (f c).documentId = c.documentId) (id : Uuid) :
    (db.rewriteChunks f hid hdoc).chunksOf id = (db.chunksOf id).map f := by
  simp only [chunksOf, rewriteChunks_chunks, Table.rewrite_rows, List.filter_map]
  congr 1
  apply List.filter_congr
  intro c _
  simp [hdoc]

@[simp] theorem document?_rewriteChunks (db : Database) (f : DocumentChunk → DocumentChunk)
    (hid : ∀ c, (f c).id = c.id) (hdoc : ∀ c, (f c).documentId = c.documentId) (id : Uuid) :
    (db.rewriteChunks f hid hdoc).document? id = db.document? id := rfl

@[simp] theorem webpage?_rewriteChunks (db : Database) (f : DocumentChunk → DocumentChunk)
    (hid : ∀ c, (f c).id = c.id) (hdoc : ∀ c, (f c).documentId = c.documentId) (id : Uuid) :
    (db.rewriteChunks f hid hdoc).webpage? id = db.webpage? id := rfl

/-! ## Documents and webpages -/

/-- The database with `d` added to the document table. -/
@[simps] def withDocument (db : Database) (t : Table Uuid Document Document.id) (d : Document)
    (ht : t.rows = db.documents.rows ++ [d]) : Database :=
  { db with
    documents := t
    chunks_fk := by
      intro c hc
      obtain ⟨old, hold, hid⟩ := db.chunks_fk c hc
      exact ⟨old, by rw [ht]; exact List.mem_append_left _ hold, hid⟩
    webpages_fk := by
      intro p hp
      obtain ⟨old, hold, hid⟩ := db.webpages_fk p hp
      exact ⟨old, by rw [ht]; exact List.mem_append_left _ hold, hid⟩ }

/-- `ck_documents_knowledge_key`: `^[a-z][a-z0-9_]{0,127}$`. -/
def validKnowledgeKey (key : String) : Bool :=
  match key.toList with
  | [] => false
  | first :: rest => first.isLower && rest.all (fun c => c.isLower || c.isDigit || c = '_') &&
      rest.length ≤ 127

/-- `INSERT INTO documents`: refused when the knowledge key is malformed, or when the
identifier or the owner's knowledge key is taken. -/
def insertDocument (db : Database) (d : Document) : Except Exc Database :=
  if ¬ validKnowledgeKey d.knowledgeKey then
    .error (.integrityError none (some "ck_documents_knowledge_key"))
  else if db.documents.rows.any (fun old => old.userId = d.userId ∧ old.knowledgeKey = d.knowledgeKey) then
    .error (.integrityError none (some "uq_documents_user_knowledge_key"))
  else
    match h : db.documents.insert? d with
    | none => .error (.integrityError none (some "documents_pkey"))
    | some t => .ok (db.withDocument t d (Table.insert?_eq_some h).1)

/-- What an accepted `INSERT INTO documents` did. -/
theorem insertDocument_ok {db db' : Database} {d : Document}
    (h : db.insertDocument d = .ok db') :
    db.document? d.id = none ∧ ∃ t ht, db' = db.withDocument t d ht := by
  unfold insertDocument at h
  split at h
  · cases h
  · split at h
    · cases h
    · split at h
      · cases h
      · next t ht =>
          cases h
          exact ⟨(Table.insert?_eq_some ht).2, t, (Table.insert?_eq_some ht).1, rfl⟩

section WithDocument

variable {db : Database} {t : Table Uuid Document Document.id} {d : Document}
  (ht : t.rows = db.documents.rows ++ [d])

theorem document?_withDocument (id : Uuid) :
    (db.withDocument t d ht).document? id = if id = d.id then some d else db.document? id := by
  split
  · next hid => subst hid; exact Table.find?_append_mem ht List.mem_cons_self
  · next hid =>
      refine Table.find?_append_of_ne ht ?_
      intro r hr
      rw [List.mem_singleton.mp hr]
      exact fun h => hid h.symm

/-- An inserted document is there. -/
theorem document?_of_insertDocument {db' : Database} (h : db.insertDocument d = .ok db') :
    db'.document? d.id = some d := by
  obtain ⟨_, t, ht, rfl⟩ := insertDocument_ok h
  rw [document?_withDocument, if_pos rfl]

@[simp] theorem webpage?_withDocument (id : Uuid) :
    (db.withDocument t d ht).webpage? id = db.webpage? id := rfl

@[simp] theorem chunksOf_withDocument (id : Uuid) :
    (db.withDocument t d ht).chunksOf id = db.chunksOf id := rfl

end WithDocument

/-- The database with `p` added to the webpage table. -/
@[simps] def withWebpage (db : Database) (t : Table Uuid DocumentWebpage DocumentWebpage.documentId)
    (p : DocumentWebpage) (ht : t.rows = db.webpages.rows ++ [p])
    (hfk : ∃ d ∈ db.documents.rows, d.id = p.documentId) : Database :=
  { db with
    webpages := t
    webpages_fk := by
      intro q hq
      rw [ht, List.mem_append, List.mem_singleton] at hq
      rcases hq with hq | rfl
      · exact db.webpages_fk q hq
      · exact hfk }

/-- `INSERT INTO document_webpages`. -/
def insertWebpage (db : Database) (p : DocumentWebpage) : Except Exc Database :=
  match h : db.webpages.insert? p with
  | none => .error (.integrityError none (some "document_webpages_pkey"))
  | some t =>
      if hfk : ∃ d ∈ db.documents.rows, d.id = p.documentId then
        .ok (db.withWebpage t p (Table.insert?_eq_some h).1 hfk)
      else .error (.integrityError none (some "document_webpages_document_id_fkey"))

/-- What an accepted `INSERT INTO document_webpages` did. -/
theorem insertWebpage_ok {db db' : Database} {p : DocumentWebpage}
    (h : db.insertWebpage p = .ok db') :
    ∃ t ht hfk, db' = db.withWebpage t p ht hfk := by
  unfold insertWebpage at h
  split at h
  · cases h
  · next t ht =>
      split at h
      · next hfk =>
          cases h
          exact ⟨t, (Table.insert?_eq_some ht).1, hfk, rfl⟩
      · cases h

section WithWebpage

variable {db : Database} {t : Table Uuid DocumentWebpage DocumentWebpage.documentId}
  {p : DocumentWebpage} (ht : t.rows = db.webpages.rows ++ [p])
  (hfk : ∃ d ∈ db.documents.rows, d.id = p.documentId)

@[simp] theorem document?_withWebpage (id : Uuid) :
    (db.withWebpage t p ht hfk).document? id = db.document? id := rfl

theorem webpage?_withWebpage (id : Uuid) :
    (db.withWebpage t p ht hfk).webpage? id = if id = p.documentId then some p else db.webpage? id := by
  split
  · next hid => subst hid; exact Table.find?_append_mem ht List.mem_cons_self
  · next hid =>
      refine Table.find?_append_of_ne ht ?_
      intro r hr
      rw [List.mem_singleton.mp hr]
      exact fun h => hid h.symm

@[simp] theorem chunksOf_withWebpage (id : Uuid) :
    (db.withWebpage t p ht hfk).chunksOf id = db.chunksOf id := rfl

end WithWebpage

/-- The documents that `p` keeps, with the chunks and webpages of those: what a
`DELETE FROM documents` with its cascade leaves. -/
@[simps] def keepDocuments (db : Database) (p : Document → Bool) : Database :=
  { db with
    documents := db.documents.keep p
    chunks := db.chunks.keep (fun c => (db.document? c.documentId).any p)
    webpages := db.webpages.keep (fun w => (db.document? w.documentId).any p)
    chunks_fk := by
      intro c hc
      obtain ⟨d, hd, hp⟩ := (Option.any_eq_true _ _).mp (List.mem_filter.mp hc).2
      obtain ⟨hmem, hid⟩ := document?_eq_some_iff.mp hd
      exact ⟨d, List.mem_filter.mpr ⟨hmem, hp⟩, hid⟩
    webpages_fk := by
      intro w hw
      obtain ⟨d, hd, hp⟩ := (Option.any_eq_true _ _).mp (List.mem_filter.mp hw).2
      obtain ⟨hmem, hid⟩ := document?_eq_some_iff.mp hd
      exact ⟨d, List.mem_filter.mpr ⟨hmem, hp⟩, hid⟩ }

theorem document?_keepDocuments (db : Database) (p : Document → Bool) (id : Uuid) :
    (db.keepDocuments p).document? id = (db.document? id).filter p :=
  Table.find?_keep _ _ _

theorem webpage?_keepDocuments (db : Database) (p : Document → Bool) (id : Uuid) :
    (db.keepDocuments p).webpage? id =
      if (db.document? id).any p then db.webpage? id else none := by
  have hkeep : (db.keepDocuments p).webpage? id =
      (db.webpage? id).filter (fun w => (db.document? w.documentId).any p) :=
    Table.find?_keep _ _ _
  rw [hkeep]
  cases hw : db.webpage? id with
  | none => simp
  | some w => rw [Option.filter_some, webpage?_id hw]

theorem chunksOf_keepDocuments (db : Database) (p : Document → Bool) (id : Uuid) :
    (db.keepDocuments p).chunksOf id = if (db.document? id).any p then db.chunksOf id else [] := by
  simp only [chunksOf, keepDocuments_chunks, Table.keep_rows, List.filter_filter]
  split
  · next hp =>
      apply List.filter_congr
      intro c _
      by_cases hc : c.documentId = id
      · simp [hc, hp]
      · simp [hc]
  · next hp =>
      rw [List.filter_eq_nil_iff]
      intro c _ hc
      simp only [Bool.and_eq_true, decide_eq_true_eq] at hc
      rw [hc.1] at hc
      exact hp hc.2

/-- `DELETE FROM documents WHERE id = … AND user_id = …`, with the number of deleted rows
as a Boolean. -/
def deleteDocument (db : Database) (documentId userId : Uuid) : Database × Bool :=
  (db.keepDocuments (fun d => ¬ (d.id = documentId ∧ d.userId = userId)),
    db.documents.rows.any (fun d => d.id = documentId ∧ d.userId = userId))

/-! ## Revisions -/

/-- The database with `r` added to the revision table. -/
@[simps] def withRevision (db : Database) (t : Table Uuid KnowledgeRevision KnowledgeRevision.id)
    (r : KnowledgeRevision) (ht : t.rows = db.revisions.rows ++ [r]) : Database :=
  { db with
    revisions := t
    revisionChunks_fk := by
      intro c hc
      obtain ⟨old, hold, hid⟩ := db.revisionChunks_fk c hc
      exact ⟨old, by rw [ht]; exact List.mem_append_left _ hold, hid⟩
    revisionWebpages_fk := by
      intro m hm
      obtain ⟨old, hold, hid⟩ := db.revisionWebpages_fk m hm
      exact ⟨old, by rw [ht]; exact List.mem_append_left _ hold, hid⟩ }

/-- `INSERT INTO knowledge_revisions`. -/
def insertRevision (db : Database) (r : KnowledgeRevision) : Except Exc Database :=
  match h : db.revisions.insert? r with
  | none => .error (.integrityError none (some "knowledge_revisions_pkey"))
  | some t => .ok (db.withRevision t r (Table.insert?_eq_some h).1)

theorem insertRevision_ok {db db' : Database} {r : KnowledgeRevision}
    (h : db.insertRevision r = .ok db') :
    db.revisions.find? r.id = none ∧ ∃ t ht, db' = db.withRevision t r ht := by
  unfold insertRevision at h
  split at h
  · cases h
  · next t ht =>
      cases h
      exact ⟨(Table.insert?_eq_some ht).2, t, (Table.insert?_eq_some ht).1, rfl⟩

/-- An inserted revision is there. -/
theorem find?_of_insertRevision {db db' : Database} {r : KnowledgeRevision}
    (h : db.insertRevision r = .ok db') : db'.revisions.find? r.id = some r := by
  obtain ⟨_, t, ht, rfl⟩ := insertRevision_ok h
  exact Table.find?_append_mem ht List.mem_cons_self

/-- The database with `rows` added to the frozen chunks. -/
@[simps] def withRevisionChunks (db : Database)
    (t : Table Uuid KnowledgeRevisionChunk KnowledgeRevisionChunk.id)
    (rows : List KnowledgeRevisionChunk) (ht : t.rows = db.revisionChunks.rows ++ rows)
    (hfk : ∀ c ∈ rows, ∃ r ∈ db.revisions.rows, r.id = c.revisionId) : Database :=
  { db with
    revisionChunks := t
    revisionChunks_fk := by
      intro c hc
      rw [ht, List.mem_append] at hc
      exact hc.elim (db.revisionChunks_fk c) (hfk c) }

/-- `INSERT INTO knowledge_revision_chunks`. -/
def insertRevisionChunks (db : Database) (rows : List KnowledgeRevisionChunk) :
    Except Exc Database :=
  match h : db.revisionChunks.insertAll? rows with
  | none => .error (.integrityError none (some "knowledge_revision_chunks_pkey"))
  | some t =>
      if hfk : ∀ c ∈ rows, ∃ r ∈ db.revisions.rows, r.id = c.revisionId then
        .ok (db.withRevisionChunks t rows (Table.insertAll?_rows h) hfk)
      else .error (.integrityError none (some "knowledge_revision_chunks_revision_id_fkey"))

theorem insertRevisionChunks_ok {db db' : Database} {rows : List KnowledgeRevisionChunk}
    (h : db.insertRevisionChunks rows = .ok db') :
    ∃ t ht hfk, db' = db.withRevisionChunks t rows ht hfk := by
  unfold insertRevisionChunks at h
  split at h
  · cases h
  · next t ht =>
      split at h
      · next hfk =>
          cases h
          exact ⟨t, Table.insertAll?_rows ht, hfk, rfl⟩
      · cases h

/-- The database with `rows` added to the webpage membership. -/
@[simps] def withRevisionWebpages (db : Database)
    (t : Table (Uuid × Uuid) KnowledgeRevisionWebpage KnowledgeRevisionWebpage.key)
    (rows : List KnowledgeRevisionWebpage) (ht : t.rows = db.revisionWebpages.rows ++ rows)
    (hfk : ∀ m ∈ rows, ∃ r ∈ db.revisions.rows, r.id = m.revisionId) : Database :=
  { db with
    revisionWebpages := t
    revisionWebpages_fk := by
      intro m hm
      rw [ht, List.mem_append] at hm
      exact hm.elim (db.revisionWebpages_fk m) (hfk m) }

/-- The condition of the trigger `rag_revision_webpage_admission` on a new membership row:
its document is a ready webpage document of the revision's owner. -/
def memberAdmitted (db : Database) (m : KnowledgeRevisionWebpage) : Bool :=
  (db.revisions.find? m.revisionId).any (fun r =>
    (db.document? m.documentId).any (fun d => d.userId = r.userId ∧ d.status = .ready)) &&
    (db.webpage? m.documentId).isSome

/-- `INSERT INTO knowledge_revision_webpages`. -/
def insertRevisionWebpages (db : Database) (rows : List KnowledgeRevisionWebpage) :
    Except Exc Database :=
  if rows.any (fun m => !db.memberAdmitted m) then
    .error (.database "live webpage must be a ready document owned by the revision owner")
  else
    match h : db.revisionWebpages.insertAll? rows with
    | none => .error (.integrityError none (some "knowledge_revision_webpages_pkey"))
    | some t =>
        if hfk : ∀ m ∈ rows, ∃ r ∈ db.revisions.rows, r.id = m.revisionId then
          .ok (db.withRevisionWebpages t rows (Table.insertAll?_rows h) hfk)
        else .error (.integrityError none (some "knowledge_revision_webpages_revision_id_fkey"))

theorem insertRevisionWebpages_ok {db db' : Database} {rows : List KnowledgeRevisionWebpage}
    (h : db.insertRevisionWebpages rows = .ok db') :
    ∃ t ht hfk, db' = db.withRevisionWebpages t rows ht hfk := by
  unfold insertRevisionWebpages at h
  split at h
  · cases h
  · split at h
    · cases h
    · next t ht =>
        split at h
        · next hfk =>
            cases h
            exact ⟨t, Table.insertAll?_rows ht, hfk, rfl⟩
        · cases h

/-- Frozen chunk rows rewritten in place by a function that keeps key and revision. -/
@[simps] def rewriteRevisionChunks (db : Database)
    (f : KnowledgeRevisionChunk → KnowledgeRevisionChunk)
    (hid : ∀ c, (f c).id = c.id) (hrev : ∀ c, (f c).revisionId = c.revisionId) : Database :=
  { db with
    revisionChunks := db.revisionChunks.rewrite f hid
    revisionChunks_fk := by
      intro c hc
      obtain ⟨old, hold, rfl⟩ := List.mem_map.mp hc
      rw [hrev]
      exact db.revisionChunks_fk old hold }

/-! ## Owner erasure -/

/-- The row that `rag_fence_owner_erasure` inserts, `ON CONFLICT DO NOTHING`. -/
@[simps] def fenceOwner (db : Database) (userId : Uuid) : Database :=
  { db with erasedOwners := if userId ∈ db.erasedOwners then db.erasedOwners
                            else userId :: db.erasedOwners }

theorem mem_fenceOwner (db : Database) (userId owner : Uuid) :
    owner ∈ (db.fenceOwner userId).erasedOwners ↔ owner = userId ∨ owner ∈ db.erasedOwners := by
  rw [fenceOwner_erasedOwners]
  split
  · next h =>
      constructor
      · exact Or.inr
      · rintro (rfl | h')
        · exact h
        · exact h'
  · simp

/-- Whether this revision belongs to `userId`. -/
def ownsRevision (db : Database) (userId revisionId : Uuid) : Bool :=
  (db.revisions.find? revisionId).any (fun r => r.userId = userId)

/-- The deletes of `rag_erase_user_data`: membership, frozen chunks and revisions of the
owner, then the owner's documents with their cascade. -/
@[simps!] def deleteOwner (db : Database) (userId : Uuid) : Database :=
  { db.keepDocuments (fun d => d.userId ≠ userId) with
    revisions := db.revisions.keep (fun r => r.userId ≠ userId)
    revisionChunks := db.revisionChunks.keep (fun c => !db.ownsRevision userId c.revisionId)
    revisionWebpages := db.revisionWebpages.keep (fun m => !db.ownsRevision userId m.revisionId)
    revisionChunks_fk := by
      intro c hc
      obtain ⟨hmem, hkeep⟩ := List.mem_filter.mp hc
      obtain ⟨r, hr, hid⟩ := db.revisionChunks_fk c hmem
      refine ⟨r, List.mem_filter.mpr ⟨hr, ?_⟩, hid⟩
      rw [ownsRevision, ← hid, Table.find?_of_mem hr] at hkeep
      simpa using hkeep
    revisionWebpages_fk := by
      intro m hm
      obtain ⟨hmem, hkeep⟩ := List.mem_filter.mp hm
      obtain ⟨r, hr, hid⟩ := db.revisionWebpages_fk m hmem
      refine ⟨r, List.mem_filter.mpr ⟨hr, ?_⟩, hid⟩
      rw [ownsRevision, ← hid, Table.find?_of_mem hr] at hkeep
      simpa using hkeep }

end Database

end PortRag.Db
