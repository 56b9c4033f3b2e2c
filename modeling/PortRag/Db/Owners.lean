import Mathlib.Data.Prod.Lex
import PortRag.Db.Statements

set_option autoImplicit false

/-!
# The rows of one owner

`slice owner` is the database without the rows of other owners: documents and revisions by
their `user_id` column, chunks, webpages, frozen chunks and membership by the row they
belong to.  A statement on rows of another owner leaves the slice alone.
-/

namespace PortRag.Db

open PortRag.Foundation

namespace Database

/-- Whether this document belongs to `owner`. -/
def ownsDocument (db : Database) (owner id : Uuid) : Bool :=
  (db.document? id).any (fun d => d.userId = owner)

/-- The rows of one owner, with the fence row of that owner. -/
@[simps!] def slice (db : Database) (owner : Uuid) : Database :=
  { db.keepDocuments (fun d => d.userId = owner) with
    revisions := db.revisions.keep (fun r => r.userId = owner)
    revisionChunks := db.revisionChunks.keep (fun c => db.ownsRevision owner c.revisionId)
    revisionWebpages := db.revisionWebpages.keep (fun m => db.ownsRevision owner m.revisionId)
    erasedOwners := if owner ∈ db.erasedOwners then [owner] else []
    revisionChunks_fk := by
      intro c hc
      obtain ⟨r, hr, howner⟩ := (Option.any_eq_true _ _).mp (List.mem_filter.mp hc).2
      obtain ⟨hmem, hid⟩ := Table.find?_eq_some_iff.mp hr
      exact ⟨r, List.mem_filter.mpr ⟨hmem, howner⟩, hid⟩
    revisionWebpages_fk := by
      intro m hm
      obtain ⟨r, hr, howner⟩ := (Option.any_eq_true _ _).mp (List.mem_filter.mp hm).2
      obtain ⟨hmem, hid⟩ := Table.find?_eq_some_iff.mp hr
      exact ⟨r, List.mem_filter.mpr ⟨hmem, howner⟩, hid⟩ }

variable {db db' : Database} {owner : Uuid}

theorem ownsDocument_iff {id : Uuid} :
    db.ownsDocument owner id = true ↔ ∃ d, db.document? id = some d ∧ d.userId = owner := by
  simp [ownsDocument, Option.any_eq_true]

theorem ownsRevision_iff {id : Uuid} :
    db.ownsRevision owner id = true ↔ ∃ r, db.revisions.find? id = some r ∧ r.userId = owner := by
  simp [ownsRevision, Option.any_eq_true]

/-- Two databases with the same rows of an owner. -/
theorem slice_congr
    (hd : db'.documents.rows.filter (fun d => d.userId = owner) =
      db.documents.rows.filter (fun d => d.userId = owner))
    (hc : db'.chunks.rows.filter (fun c => db'.ownsDocument owner c.documentId) =
      db.chunks.rows.filter (fun c => db.ownsDocument owner c.documentId))
    (hw : db'.webpages.rows.filter (fun p => db'.ownsDocument owner p.documentId) =
      db.webpages.rows.filter (fun p => db.ownsDocument owner p.documentId))
    (hr : db'.revisions.rows.filter (fun r => r.userId = owner) =
      db.revisions.rows.filter (fun r => r.userId = owner))
    (hrc : db'.revisionChunks.rows.filter (fun c => db'.ownsRevision owner c.revisionId) =
      db.revisionChunks.rows.filter (fun c => db.ownsRevision owner c.revisionId))
    (hrw : db'.revisionWebpages.rows.filter (fun m => db'.ownsRevision owner m.revisionId) =
      db.revisionWebpages.rows.filter (fun m => db.ownsRevision owner m.revisionId))
    (he : owner ∈ db'.erasedOwners ↔ owner ∈ db.erasedOwners) :
    db'.slice owner = db.slice owner := by
  have herased : (db'.slice owner).erasedOwners = (db.slice owner).erasedOwners := by
    simp only [slice_erasedOwners, he]
  exact Database.ext (Table.ext hd) (Table.ext hc) (Table.ext hw) (Table.ext hr) (Table.ext hrc)
    (Table.ext hrw) herased

/-! ## Statements on rows of another owner -/

/-- A statement that changes no owner, and rows of other owners only. -/
theorem slice_of_owners (howners : ∀ id, db'.ownsDocument owner id = db.ownsDocument owner id)
    (hd : db'.documents.rows.filter (fun d => d.userId = owner) =
      db.documents.rows.filter (fun d => d.userId = owner))
    (hc : db'.chunks.rows.filter (fun c => db.ownsDocument owner c.documentId) =
      db.chunks.rows.filter (fun c => db.ownsDocument owner c.documentId))
    (hw : db'.webpages.rows.filter (fun p => db.ownsDocument owner p.documentId) =
      db.webpages.rows.filter (fun p => db.ownsDocument owner p.documentId))
    (hr : db'.revisions = db.revisions) (hrc : db'.revisionChunks = db.revisionChunks)
    (hrw : db'.revisionWebpages = db.revisionWebpages)
    (he : db'.erasedOwners = db.erasedOwners) : db'.slice owner = db.slice owner := by
  have hrevision : ∀ id, db'.ownsRevision owner id = db.ownsRevision owner id := by
    intro id
    rw [ownsRevision, ownsRevision, hr]
  refine slice_congr hd ?_ ?_ ?_ ?_ ?_ (by rw [he])
  · simp only [howners, hc]
  · simp only [howners, hw]
  · rw [hr]
  · simp only [hrevision, hrc]
  · simp only [hrevision, hrw]

theorem slice_updateDocument {d old : Document} (hold : db.document? d.id = some old)
    (hsame : d.userId = old.userId) (hne : d.userId ≠ owner) :
    (db.updateDocument d).slice owner = db.slice owner := by
  refine slice_of_owners ?_ ?_ rfl rfl rfl rfl rfl rfl
  · intro id
    rw [ownsDocument, ownsDocument, document?_updateDocument hold]
    split
    · next hid => rw [hid, hold, Option.any_some, Option.any_some, hsame]
    · rfl
  · have hdocs := db.documents.filter_put d (fun r => r.userId = owner)
    refine hdocs ?_ (by simpa using hne)
    intro row hrow hkey
    have hrow' : db.document? d.id = some row := Table.find?_eq_some_iff.mpr ⟨hrow, hkey⟩
    obtain rfl := Option.some.inj (hold.symm.trans hrow')
    simpa [← hsame] using hne

theorem slice_updateWebpage {p : DocumentWebpage}
    (hne : db.ownsDocument owner p.documentId = false) :
    (db.updateWebpage p).slice owner = db.slice owner := by
  refine slice_of_owners (fun _ => rfl) rfl rfl ?_ rfl rfl rfl rfl
  have hpages := db.webpages.filter_put p (fun r => db.ownsDocument owner r.documentId)
  refine hpages ?_ hne
  intro row _ hkey
  exact (congrArg (db.ownsDocument owner) hkey).trans hne

theorem slice_deleteChunks {id : Uuid} (hne : db.ownsDocument owner id = false) :
    (db.deleteChunks id).slice owner = db.slice owner := by
  refine slice_of_owners (fun _ => rfl) rfl ?_ rfl rfl rfl rfl rfl
  rw [deleteChunks_chunks, Table.keep_rows, List.filter_filter]
  apply List.filter_congr
  intro c _
  by_cases hc : c.documentId = id
  · simp [hc, hne]
  · simp [hc]

theorem slice_withChunks {t : Table Uuid DocumentChunk DocumentChunk.id}
    {rows : List DocumentChunk} (ht : t.rows = db.chunks.rows ++ rows)
    (hfk : ∀ c ∈ rows, ∃ d ∈ db.documents.rows, d.id = c.documentId)
    (hne : ∀ c ∈ rows, db.ownsDocument owner c.documentId = false) :
    (db.withChunks t rows ht hfk).slice owner = db.slice owner := by
  refine slice_of_owners (fun _ => rfl) rfl ?_ rfl rfl rfl rfl rfl
  have hnone : rows.filter (fun c => db.ownsDocument owner c.documentId) = [] := by
    rw [List.filter_eq_nil_iff]
    intro c hc
    simp [hne c hc]
  rw [withChunks_chunks, ht, List.filter_append, hnone, List.append_nil]

theorem slice_rewriteChunks {f : DocumentChunk → DocumentChunk}
    (hid : ∀ c, (f c).id = c.id) (hdoc : ∀ c, (f c).documentId = c.documentId)
    (hsame : ∀ c ∈ db.chunks.rows, db.ownsDocument owner c.documentId = true → f c = c) :
    (db.rewriteChunks f hid hdoc).slice owner = db.slice owner := by
  refine slice_of_owners (fun _ => rfl) rfl ?_ rfl rfl rfl rfl rfl
  rw [rewriteChunks_chunks, Table.rewrite_rows, List.filter_map]
  have hpred : (fun c : DocumentChunk => db.ownsDocument owner c.documentId) ∘ f =
      fun c => db.ownsDocument owner c.documentId := by
    funext c
    exact congrArg (db.ownsDocument owner) (hdoc c)
  rw [hpred]
  refine (List.map_congr_left ?_).trans (List.map_id _)
  intro c hc
  obtain ⟨hmem, howns⟩ := List.mem_filter.mp hc
  exact hsame c hmem howns

/-- A document that is there keeps its owner when another one is added. -/
theorem ownsDocument_withDocument {t : Table Uuid Document Document.id} {d : Document}
    (ht : t.rows = db.documents.rows ++ [d]) (hne : d.userId ≠ owner)
    (hfresh : db.document? d.id = none) (id : Uuid) :
    (db.withDocument t d ht).ownsDocument owner id = db.ownsDocument owner id := by
  rw [ownsDocument, ownsDocument, document?_withDocument]
  split
  · next hid => simp [hid, hfresh, hne]
  · rfl

theorem slice_withDocument {t : Table Uuid Document Document.id} {d : Document}
    (ht : t.rows = db.documents.rows ++ [d]) (hne : d.userId ≠ owner)
    (hfresh : db.document? d.id = none) :
    (db.withDocument t d ht).slice owner = db.slice owner := by
  refine slice_of_owners (ownsDocument_withDocument ht hne hfresh) ?_ rfl rfl rfl rfl rfl rfl
  have hnone : [d].filter (fun d => d.userId = owner) = [] := by simp [hne]
  rw [withDocument_documents, ht, List.filter_append, hnone, List.append_nil]

theorem slice_withWebpage {t : Table Uuid DocumentWebpage DocumentWebpage.documentId}
    {p : DocumentWebpage} (ht : t.rows = db.webpages.rows ++ [p])
    (hfk : ∃ d ∈ db.documents.rows, d.id = p.documentId)
    (hne : db.ownsDocument owner p.documentId = false) :
    (db.withWebpage t p ht hfk).slice owner = db.slice owner := by
  refine slice_of_owners (fun _ => rfl) rfl rfl ?_ rfl rfl rfl rfl
  have hnone : [p].filter (fun p => db.ownsDocument owner p.documentId) = [] := by simp [hne]
  rw [withWebpage_webpages, ht, List.filter_append, hnone, List.append_nil]

/-- A deletion that spares an owner's documents leaves the whole slice of the owner, with the rows
that would have gone by cascade. -/
theorem slice_keepDocuments {p : Document → Bool} (hkeep : ∀ d, d.userId = owner → p d = true) :
    (db.keepDocuments p).slice owner = db.slice owner := by
  have howns : ∀ id, db.ownsDocument owner id = true → (db.document? id).any p = true := by
    intro id hid
    obtain ⟨d, hd, howner⟩ := ownsDocument_iff.mp hid
    rw [hd, Option.any_some]
    exact hkeep d howner
  refine slice_of_owners ?_ ?_ ?_ ?_ rfl rfl rfl rfl
  · intro id
    rw [ownsDocument, ownsDocument, document?_keepDocuments]
    cases db.document? id with
    | none => rfl
    | some d =>
        rw [Option.filter_some, Option.any_some]
        by_cases howner : d.userId = owner
        · simp [hkeep d howner]
        · split <;> simp [howner]
  · rw [keepDocuments_documents, Table.keep_rows, List.filter_filter]
    apply List.filter_congr
    intro d _
    by_cases howner : d.userId = owner
    · simp [howner, hkeep d howner]
    · simp [howner]
  · rw [keepDocuments_chunks, Table.keep_rows, List.filter_filter]
    apply List.filter_congr
    intro c _
    cases hc : db.ownsDocument owner c.documentId with
    | true => rw [howns _ hc, Bool.and_self]
    | false => rw [Bool.false_and]
  · rw [keepDocuments_webpages, Table.keep_rows, List.filter_filter]
    apply List.filter_congr
    intro w _
    cases hw : db.ownsDocument owner w.documentId with
    | true => rw [howns _ hw, Bool.and_self]
    | false => rw [Bool.false_and]

/-! ## Revisions of another owner -/

/-- A statement on the revision tables that adds rows of other owners only. -/
theorem slice_of_revisions (hdoc : db'.documents = db.documents) (hchunk : db'.chunks = db.chunks)
    (hpage : db'.webpages = db.webpages) (he : db'.erasedOwners = db.erasedOwners)
    (howners : ∀ id, db'.ownsRevision owner id = db.ownsRevision owner id)
    (hr : db'.revisions.rows.filter (fun r => r.userId = owner) =
      db.revisions.rows.filter (fun r => r.userId = owner))
    (hrc : db'.revisionChunks.rows.filter (fun c => db.ownsRevision owner c.revisionId) =
      db.revisionChunks.rows.filter (fun c => db.ownsRevision owner c.revisionId))
    (hrw : db'.revisionWebpages.rows.filter (fun m => db.ownsRevision owner m.revisionId) =
      db.revisionWebpages.rows.filter (fun m => db.ownsRevision owner m.revisionId)) :
    db'.slice owner = db.slice owner := by
  have hdocument : ∀ id, db'.ownsDocument owner id = db.ownsDocument owner id := by
    intro id
    rw [ownsDocument, ownsDocument, document?, document?, hdoc]
  refine slice_congr ?_ ?_ ?_ hr ?_ ?_ (by rw [he])
  · rw [hdoc]
  · simp only [hdocument, hchunk]
  · simp only [hdocument, hpage]
  · simp only [howners, hrc]
  · simp only [howners, hrw]

theorem find?_withRevision {t : Table Uuid KnowledgeRevision KnowledgeRevision.id}
    {r : KnowledgeRevision} (ht : t.rows = db.revisions.rows ++ [r]) (id : Uuid) :
    (db.withRevision t r ht).revisions.find? id =
      if id = r.id then some r else db.revisions.find? id := by
  split
  · next hid => subst hid; exact Table.find?_append_mem ht List.mem_cons_self
  · next hid =>
      refine Table.find?_append_of_ne ht ?_
      intro row hrow
      rw [List.mem_singleton.mp hrow]
      exact fun h => hid h.symm

theorem slice_withRevision {t : Table Uuid KnowledgeRevision KnowledgeRevision.id}
    {r : KnowledgeRevision} (ht : t.rows = db.revisions.rows ++ [r]) (hne : r.userId ≠ owner)
    (hfresh : db.revisions.find? r.id = none) :
    (db.withRevision t r ht).slice owner = db.slice owner := by
  have hnone : [r].filter (fun r => r.userId = owner) = [] := by simp [hne]
  refine slice_of_revisions rfl rfl rfl rfl ?_ ?_ rfl rfl
  · intro id
    rw [ownsRevision, ownsRevision, find?_withRevision]
    split
    · next hid => simp [hid, hfresh, hne]
    · rfl
  · rw [withRevision_revisions, ht, List.filter_append, hnone, List.append_nil]

theorem slice_withRevisionChunks
    {t : Table Uuid KnowledgeRevisionChunk KnowledgeRevisionChunk.id}
    {rows : List KnowledgeRevisionChunk} (ht : t.rows = db.revisionChunks.rows ++ rows)
    (hfk : ∀ c ∈ rows, ∃ r ∈ db.revisions.rows, r.id = c.revisionId)
    (hne : ∀ c ∈ rows, db.ownsRevision owner c.revisionId = false) :
    (db.withRevisionChunks t rows ht hfk).slice owner = db.slice owner := by
  refine slice_of_revisions rfl rfl rfl rfl (fun _ => rfl) rfl ?_ rfl
  have hnone : rows.filter (fun c => db.ownsRevision owner c.revisionId) = [] := by
    rw [List.filter_eq_nil_iff]
    intro c hc
    simp [hne c hc]
  rw [withRevisionChunks_revisionChunks, ht, List.filter_append, hnone, List.append_nil]

theorem slice_withRevisionWebpages
    {t : Table (Uuid × Uuid) KnowledgeRevisionWebpage KnowledgeRevisionWebpage.key}
    {rows : List KnowledgeRevisionWebpage} (ht : t.rows = db.revisionWebpages.rows ++ rows)
    (hfk : ∀ m ∈ rows, ∃ r ∈ db.revisions.rows, r.id = m.revisionId)
    (hne : ∀ m ∈ rows, db.ownsRevision owner m.revisionId = false) :
    (db.withRevisionWebpages t rows ht hfk).slice owner = db.slice owner := by
  refine slice_of_revisions rfl rfl rfl rfl (fun _ => rfl) rfl rfl ?_
  have hnone : rows.filter (fun m => db.ownsRevision owner m.revisionId) = [] := by
    rw [List.filter_eq_nil_iff]
    intro m hm
    simp [hne m hm]
  rw [withRevisionWebpages_revisionWebpages, ht, List.filter_append, hnone, List.append_nil]

/-! ## Reads of a slice -/

theorem document?_slice (db : Database) (owner id : Uuid) :
    (db.slice owner).document? id = (db.document? id).filter (fun d => d.userId = owner) :=
  document?_keepDocuments db _ id

theorem webpage?_slice (db : Database) (owner id : Uuid) :
    (db.slice owner).webpage? id = if db.ownsDocument owner id then db.webpage? id else none :=
  webpage?_keepDocuments db _ id

theorem chunksOf_slice (db : Database) (owner id : Uuid) :
    (db.slice owner).chunksOf id = if db.ownsDocument owner id then db.chunksOf id else [] :=
  chunksOf_keepDocuments db _ id

theorem find?_revisions_slice (db : Database) (owner id : Uuid) :
    (db.slice owner).revisions.find? id =
      (db.revisions.find? id).filter (fun r => r.userId = owner) :=
  Table.find?_keep _ _ _

@[simp] theorem ownsRevision_slice (db : Database) (owner id : Uuid) :
    (db.slice owner).ownsRevision owner id = db.ownsRevision owner id := by
  rw [ownsRevision, ownsRevision, find?_revisions_slice]
  cases db.revisions.find? id with
  | none => rfl
  | some r =>
      rw [Option.filter_some, Option.any_some]
      split
      · next howner => rw [Option.any_some]
      · next howner => simpa using howner

/-- Rows of a revision in the slice of an owner. -/
theorem filter_revision_slice {ρ : Type} (rows : List ρ) (revision : ρ → Uuid)
    {id : Uuid} (howns : db.ownsRevision owner id = true) :
    (rows.filter (fun c => db.ownsRevision owner (revision c))).filter (fun c => revision c = id) =
      rows.filter (fun c => revision c = id) := by
  rw [List.filter_filter]
  apply List.filter_congr
  intro c _
  by_cases hc : revision c = id
  · simp [hc, howns]
  · simp [hc]

theorem frozenOf_slice {id : Uuid} (howns : db.ownsRevision owner id = true) :
    (db.slice owner).frozenOf id = db.frozenOf id :=
  filter_revision_slice db.revisionChunks.rows KnowledgeRevisionChunk.revisionId howns

theorem membersOf_slice {id : Uuid} (howns : db.ownsRevision owner id = true) :
    (db.slice owner).membersOf id = db.membersOf id :=
  filter_revision_slice db.revisionWebpages.rows KnowledgeRevisionWebpage.revisionId howns

theorem mem_erasedOwners_slice (db : Database) (owner : Uuid) :
    owner ∈ (db.slice owner).erasedOwners ↔ owner ∈ db.erasedOwners := by
  rw [slice_erasedOwners]
  split <;> simp_all

/-! ## Databases with the same rows -/

/-- The same rows in every table, in whatever order. -/
structure SameRows (a b : Database) : Prop where
  documents : ∀ d, d ∈ a.documents.rows ↔ d ∈ b.documents.rows
  chunks : ∀ c, c ∈ a.chunks.rows ↔ c ∈ b.chunks.rows
  webpages : ∀ p, p ∈ a.webpages.rows ↔ p ∈ b.webpages.rows
  revisions : ∀ r, r ∈ a.revisions.rows ↔ r ∈ b.revisions.rows
  revisionChunks : ∀ c, c ∈ a.revisionChunks.rows ↔ c ∈ b.revisionChunks.rows
  revisionWebpages : ∀ m, m ∈ a.revisionWebpages.rows ↔ m ∈ b.revisionWebpages.rows
  erased : ∀ owner, owner ∈ a.erasedOwners ↔ owner ∈ b.erasedOwners

/-- The database with the rows of every table in the order of their identity: the order in
which queries see rows that their `ORDER BY` does not tell apart. -/
def byIdentity (db : Database) : Database where
  documents := db.documents.arrange id
  chunks := db.chunks.arrange id
  webpages := db.webpages.arrange id
  revisions := db.revisions.arrange id
  revisionChunks := db.revisionChunks.arrange id
  revisionWebpages := db.revisionWebpages.arrange toLex
  erasedOwners := db.erasedOwners
  chunks_fk := by simpa using db.chunks_fk
  webpages_fk := by simpa using db.webpages_fk
  revisionChunks_fk := by simpa using db.revisionChunks_fk
  revisionWebpages_fk := by simpa using db.revisionWebpages_fk

theorem sameRows_byIdentity (db : Database) : SameRows db.byIdentity db where
  documents := fun _ => Table.mem_arrange
  chunks := fun _ => Table.mem_arrange
  webpages := fun _ => Table.mem_arrange
  revisions := fun _ => Table.mem_arrange
  revisionChunks := fun _ => Table.mem_arrange
  revisionWebpages := fun _ => Table.mem_arrange
  erased := fun _ => Iff.rfl

theorem SameRows.refl (db : Database) : SameRows db db :=
  ⟨fun _ => Iff.rfl, fun _ => Iff.rfl, fun _ => Iff.rfl, fun _ => Iff.rfl, fun _ => Iff.rfl,
    fun _ => Iff.rfl, fun _ => Iff.rfl⟩

theorem SameRows.symm {a b : Database} (h : SameRows a b) : SameRows b a where
  documents := fun d => (h.documents d).symm
  chunks := fun c => (h.chunks c).symm
  webpages := fun p => (h.webpages p).symm
  revisions := fun r => (h.revisions r).symm
  revisionChunks := fun c => (h.revisionChunks c).symm
  revisionWebpages := fun m => (h.revisionWebpages m).symm
  erased := fun owner => (h.erased owner).symm

theorem SameRows.trans {a b c : Database} (h : SameRows a b) (h' : SameRows b c) :
    SameRows a c where
  documents := fun d => (h.documents d).trans (h'.documents d)
  chunks := fun c => (h.chunks c).trans (h'.chunks c)
  webpages := fun p => (h.webpages p).trans (h'.webpages p)
  revisions := fun r => (h.revisions r).trans (h'.revisions r)
  revisionChunks := fun c => (h.revisionChunks c).trans (h'.revisionChunks c)
  revisionWebpages := fun m => (h.revisionWebpages m).trans (h'.revisionWebpages m)
  erased := fun owner => (h.erased owner).trans (h'.erased owner)

theorem SameRows.slice {a b : Database} (h : SameRows a b) (owner : Uuid) :
    SameRows (a.slice owner) (b.slice owner) := by
  have hdocument : ∀ id, a.ownsDocument owner id = b.ownsDocument owner id := by
    intro id
    rw [ownsDocument, ownsDocument, document?, document?, Table.find?_of_mem_iff h.documents]
  have hrevision : ∀ id, a.ownsRevision owner id = b.ownsRevision owner id := by
    intro id
    rw [ownsRevision, ownsRevision, Table.find?_of_mem_iff h.revisions]
  refine ⟨?_, ?_, ?_, ?_, ?_, ?_, ?_⟩
  · exact Table.mem_keep_congr h.documents (fun _ => rfl)
  · exact Table.mem_keep_congr h.chunks (fun c => hdocument c.documentId)
  · exact Table.mem_keep_congr h.webpages (fun p => hdocument p.documentId)
  · exact Table.mem_keep_congr h.revisions (fun _ => rfl)
  · exact Table.mem_keep_congr h.revisionChunks (fun c => hrevision c.revisionId)
  · exact Table.mem_keep_congr h.revisionWebpages (fun m => hrevision m.revisionId)
  · intro other
    rw [slice_erasedOwners, slice_erasedOwners, if_congr (h.erased owner) rfl rfl]

/-- Slices with the same rows are equal when the rows stand in the order of identity. -/
theorem slice_byIdentity_eq {a b : Database} (h : SameRows (a.slice owner) (b.slice owner)) :
    a.byIdentity.slice owner = b.byIdentity.slice owner := by
  have hsame : SameRows (a.byIdentity.slice owner) (b.byIdentity.slice owner) :=
    ((sameRows_byIdentity a).slice owner).trans
      (h.trans ((sameRows_byIdentity b).slice owner).symm)
  have herased : (a.byIdentity.slice owner).erasedOwners
      = (b.byIdentity.slice owner).erasedOwners := by
    have hfence := hsame.erased owner
    rw [mem_erasedOwners_slice, mem_erasedOwners_slice] at hfence
    rw [slice_erasedOwners, slice_erasedOwners, if_congr hfence rfl rfl]
  have hid : Function.Injective (id : Uuid → Uuid) := Function.injective_id
  refine Database.ext ?_ ?_ ?_ ?_ ?_ ?_ herased
  · exact Table.ext_of_pairwise hid ((Table.arrange_pairwise _).filter _)
      ((Table.arrange_pairwise _).filter _) hsame.documents
  · exact Table.ext_of_pairwise hid ((Table.arrange_pairwise _).filter _)
      ((Table.arrange_pairwise _).filter _) hsame.chunks
  · exact Table.ext_of_pairwise hid ((Table.arrange_pairwise _).filter _)
      ((Table.arrange_pairwise _).filter _) hsame.webpages
  · exact Table.ext_of_pairwise hid ((Table.arrange_pairwise _).filter _)
      ((Table.arrange_pairwise _).filter _) hsame.revisions
  · exact Table.ext_of_pairwise hid ((Table.arrange_pairwise _).filter _)
      ((Table.arrange_pairwise _).filter _) hsame.revisionChunks
  · exact Table.ext_of_pairwise toLex.injective ((Table.arrange_pairwise _).filter _)
      ((Table.arrange_pairwise _).filter _) hsame.revisionWebpages

end Database

end PortRag.Db
