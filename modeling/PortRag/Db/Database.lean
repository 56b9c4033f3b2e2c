import PortRag.Db.Models

set_option autoImplicit false

/-!
# The database

One PostgreSQL database with the constraints its schema declares: primary keys (in
`Table`), foreign keys (fields of `Database`) and the unique index on
`(user_id, knowledge_key)`, checked by `insertDocument`.  Each operation below is one SQL
statement of the service: deletes of documents cascade to their chunks and webpage,
and an insert that breaks a key raises `IntegrityError`, with the constraint's name where
the asyncpg driver shows it, under `orig.__cause__`.

`erasedOwners` is the table `rag_erased_owners`; an owner stands for the hash of its
identifier.
-/

namespace PortRag.Db

open PortRag.Foundation

/-- The tables of the service with their keys, and the owners that are fenced.  A field for each
foreign key keeps a row from standing without the row that it refers to. -/
structure Database where
  documents : Table Uuid Document Document.id
  chunks : Table Uuid DocumentChunk DocumentChunk.id
  webpages : Table Uuid DocumentWebpage DocumentWebpage.documentId
  revisions : Table Uuid KnowledgeRevision KnowledgeRevision.id
  revisionChunks : Table Uuid KnowledgeRevisionChunk KnowledgeRevisionChunk.id
  revisionWebpages : Table (Uuid × Uuid) KnowledgeRevisionWebpage KnowledgeRevisionWebpage.key
  erasedOwners : List Uuid
  chunks_fk : ∀ c ∈ chunks.rows, ∃ d ∈ documents.rows, d.id = c.documentId
  webpages_fk : ∀ p ∈ webpages.rows, ∃ d ∈ documents.rows, d.id = p.documentId
  revisionChunks_fk : ∀ c ∈ revisionChunks.rows, ∃ r ∈ revisions.rows, r.id = c.revisionId
  revisionWebpages_fk : ∀ m ∈ revisionWebpages.rows, ∃ r ∈ revisions.rows, r.id = m.revisionId

namespace Database

/-- The freshly migrated database. -/
def empty : Database where
  documents := .empty
  chunks := .empty
  webpages := .empty
  revisions := .empty
  revisionChunks := .empty
  revisionWebpages := .empty
  erasedOwners := []
  chunks_fk := by simp
  webpages_fk := by simp
  revisionChunks_fk := by simp
  revisionWebpages_fk := by simp

instance : Inhabited Database := ⟨empty⟩

@[ext] theorem ext {a b : Database} (hd : a.documents = b.documents) (hc : a.chunks = b.chunks)
    (hw : a.webpages = b.webpages) (hr : a.revisions = b.revisions)
    (hrc : a.revisionChunks = b.revisionChunks) (hrw : a.revisionWebpages = b.revisionWebpages)
    (he : a.erasedOwners = b.erasedOwners) : a = b := by
  cases a; cases b; simp_all

/-! ## Reads -/

/-- The document with this identifier. -/
def document? (db : Database) (id : Uuid) : Option Document := db.documents.find? id

/-- The webpage row of this document. -/
def webpage? (db : Database) (id : Uuid) : Option DocumentWebpage := db.webpages.find? id

/-- The chunk rows of this document. -/
def chunksOf (db : Database) (id : Uuid) : List DocumentChunk :=
  db.chunks.rows.filter (fun c => c.documentId = id)

/-- The frozen chunk rows of this revision. -/
def frozenOf (db : Database) (id : Uuid) : List KnowledgeRevisionChunk :=
  db.revisionChunks.rows.filter (fun c => c.revisionId = id)

/-- The webpage membership of this revision. -/
def membersOf (db : Database) (id : Uuid) : List KnowledgeRevisionWebpage :=
  db.revisionWebpages.rows.filter (fun m => m.revisionId = id)

theorem document?_eq_some_iff {db : Database} {id : Uuid} {d : Document} :
    db.document? id = some d ↔ d ∈ db.documents.rows ∧ d.id = id :=
  Table.find?_eq_some_iff

theorem webpage?_eq_some_iff {db : Database} {id : Uuid} {p : DocumentWebpage} :
    db.webpage? id = some p ↔ p ∈ db.webpages.rows ∧ p.documentId = id :=
  Table.find?_eq_some_iff

theorem document?_id {db : Database} {id : Uuid} {d : Document} (h : db.document? id = some d) :
    d.id = id :=
  Table.find?_key h

theorem webpage?_id {db : Database} {id : Uuid} {p : DocumentWebpage}
    (h : db.webpage? id = some p) : p.documentId = id :=
  Table.find?_key h

theorem mem_chunksOf {db : Database} {id : Uuid} {c : DocumentChunk} :
    c ∈ db.chunksOf id ↔ c ∈ db.chunks.rows ∧ c.documentId = id := by
  simp [chunksOf]

/-- A webpage row has its document. -/
theorem document?_of_webpage? {db : Database} {id : Uuid} {p : DocumentWebpage}
    (h : db.webpage? id = some p) : ∃ d, db.document? id = some d := by
  obtain ⟨hp, hid⟩ := webpage?_eq_some_iff.mp h
  obtain ⟨d, hd, hdid⟩ := db.webpages_fk p hp
  exact ⟨d, document?_eq_some_iff.mpr ⟨hd, hdid.trans hid⟩⟩

/-- A document that does not exist has no chunks. -/
theorem chunksOf_of_document?_none {db : Database} {id : Uuid} (h : db.document? id = none) :
    db.chunksOf id = [] := by
  rw [chunksOf, List.filter_eq_nil_iff]
  intro c hc
  obtain ⟨d, hd, hdid⟩ := db.chunks_fk c hc
  have hne := Table.find?_eq_none_iff.mp h d hd
  simp only [decide_eq_true_eq]
  exact fun hcid => hne (hdid.trans hcid)

/-- A revision that does not exist has no frozen chunks and no members. -/
theorem frozenOf_of_find?_none {db : Database} {id : Uuid} (h : db.revisions.find? id = none) :
    db.frozenOf id = [] := by
  rw [frozenOf, List.filter_eq_nil_iff]
  intro c hc
  obtain ⟨r, hr, hid⟩ := db.revisionChunks_fk c hc
  have hne := Table.find?_eq_none_iff.mp h r hr
  simp only [decide_eq_true_eq]
  exact fun hcid => hne (hid.trans hcid)

theorem membersOf_of_find?_none {db : Database} {id : Uuid} (h : db.revisions.find? id = none) :
    db.membersOf id = [] := by
  rw [membersOf, List.filter_eq_nil_iff]
  intro m hm
  obtain ⟨r, hr, hid⟩ := db.revisionWebpages_fk m hm
  have hne := Table.find?_eq_none_iff.mp h r hr
  simp only [decide_eq_true_eq]
  exact fun hmid => hne (hid.trans hmid)

/-- A document that does not exist has no webpage row. -/
theorem webpage?_of_document?_none {db : Database} {id : Uuid} (h : db.document? id = none) :
    db.webpage? id = none := by
  cases hw : db.webpage? id with
  | none => rfl
  | some p =>
      obtain ⟨d, hd⟩ := document?_of_webpage? hw
      rw [h] at hd
      cases hd

end Database

end PortRag.Db
