import PortRag.Security.Plaintext
import PortRag.Knowledge.Revisions
import PortRag.Http.Documents

set_option autoImplicit false

/-!
# The plaintext of a database

Which column is stored under which binding, in one place: `reveal` of a row replaces each of
its private columns by what it stands for, and a row is `Sealed` when every private column
stands for something.  The owner in a binding is the owner of the document or of the
revision that the row belongs to.
-/

namespace PortRag.Db

open PortRag.Foundation PortRag.Security PortRag.Http PortRag.Ingest PortRag.Knowledge

/-- The stored text stands for something under this binding. -/
def TextSealed (opens : Opens) (stored : String) (binding : StorageBinding) : Prop :=
  TextStands opens stored binding (revealText opens stored binding)

/-- The stored JSON value stands for something under this binding. -/
def JsonSealed (opens : Opens) (stored : Json) (binding : StorageBinding) : Prop :=
  JsonStands opens stored binding (revealJson opens stored binding)

/-! ## Rows -/

/-- The binding of a column of this document. -/
def Document.binding (d : Document) (field : String) : StorageBinding :=
  ⟨d.userId.str, d.id.str, field⟩

/-- The document row in the clear. -/
def Document.reveal (opens : Opens) (d : Document) : Document :=
  { d with
    name := revealText opens d.name (d.binding "document:name")
    error := d.error.map (fun e => revealText opens e (d.binding "document:error")) }

@[simp] theorem Document.reveal_id (opens : Opens) (d : Document) : (d.reveal opens).id = d.id :=
  rfl

@[simp] theorem Document.reveal_userId (opens : Opens) (d : Document) :
    (d.reveal opens).userId = d.userId := rfl

@[simp] theorem Document.reveal_status (opens : Opens) (d : Document) :
    (d.reveal opens).status = d.status := rfl

/-- Every private column of the document row stands for something. -/
structure Document.Sealed (opens : Opens) (d : Document) : Prop where
  name : TextSealed opens d.name (d.binding "document:name")
  error : ∀ e ∈ d.error, TextSealed opens e (d.binding "document:error")

/-- The chunk row in the clear; `owner` is the owner of its document. -/
def DocumentChunk.reveal (opens : Opens) (owner : String) (c : DocumentChunk) : DocumentChunk :=
  { c with
    text := revealText opens c.text ⟨owner, c.documentId.str, chunkTextField c.seq⟩
    metadata := revealJson opens c.metadata ⟨owner, c.documentId.str, chunkMetadataField c.seq⟩ }

@[simp] theorem DocumentChunk.reveal_id (opens : Opens) (owner : String) (c : DocumentChunk) :
    (c.reveal opens owner).id = c.id := rfl

@[simp] theorem DocumentChunk.reveal_documentId (opens : Opens) (owner : String)
    (c : DocumentChunk) : (c.reveal opens owner).documentId = c.documentId := rfl

/-- Every private column of the chunk row stands for something, its metadata for a `dict`. -/
structure DocumentChunk.Sealed (opens : Opens) (owner : String) (c : DocumentChunk) : Prop where
  text : TextSealed opens c.text ⟨owner, c.documentId.str, chunkTextField c.seq⟩
  metadata : JsonSealed opens c.metadata ⟨owner, c.documentId.str, chunkMetadataField c.seq⟩
  dict : (c.reveal opens owner).metadata.IsDict

/-- The URL list in the clear. -/
def revealUrls (opens : Opens) (owner resource : String) (urls : List String) : List String :=
  urls.zipIdx.map (fun u => revealText opens u.1 ⟨owner, resource, urlField u.2⟩)

/-- The webpage row in the clear. -/
def DocumentWebpage.reveal (opens : Opens) (owner : String) (p : DocumentWebpage) :
    DocumentWebpage :=
  { p with
    urls := revealUrls opens owner p.documentId.str p.urls
    content := revealText opens p.content ⟨owner, p.documentId.str, "webpage:content"⟩
    syncError := p.syncError.map
      (fun e => revealText opens e ⟨owner, p.documentId.str, "webpage:error"⟩) }

@[simp] theorem DocumentWebpage.reveal_documentId (opens : Opens) (owner : String)
    (p : DocumentWebpage) : (p.reveal opens owner).documentId = p.documentId := rfl

/-- The private columns of a webpage row hold what their bindings open, or legacy texts. -/
structure DocumentWebpage.Sealed (opens : Opens) (owner : String) (p : DocumentWebpage) :
    Prop where
  urls : ∀ u ∈ p.urls.zipIdx, TextSealed opens u.1 ⟨owner, p.documentId.str, urlField u.2⟩
  content : TextSealed opens p.content ⟨owner, p.documentId.str, "webpage:content"⟩
  syncError : ∀ e ∈ p.syncError,
    TextSealed opens e ⟨owner, p.documentId.str, "webpage:error"⟩

/-- The frozen chunk row in the clear; `owner` is the owner of its revision. -/
def KnowledgeRevisionChunk.reveal (opens : Opens) (owner : String)
    (c : KnowledgeRevisionChunk) : KnowledgeRevisionChunk :=
  { c with
    documentName := revealText opens c.documentName
      ⟨owner, c.revisionId.str, frozenNameField c.sourceDocumentId⟩
    text := revealText opens c.text
      ⟨owner, c.revisionId.str, frozenTextField c.sourceDocumentId c.seq⟩
    metadata := revealJson opens c.metadata
      ⟨owner, c.revisionId.str, frozenMetadataField c.sourceDocumentId c.seq⟩ }

@[simp] theorem KnowledgeRevisionChunk.reveal_id (opens : Opens) (owner : String)
    (c : KnowledgeRevisionChunk) : (c.reveal opens owner).id = c.id := rfl

@[simp] theorem KnowledgeRevisionChunk.reveal_revisionId (opens : Opens) (owner : String)
    (c : KnowledgeRevisionChunk) : (c.reveal opens owner).revisionId = c.revisionId := rfl

/-- So do those of a frozen chunk, under the bindings of its revision. -/
structure KnowledgeRevisionChunk.Sealed (opens : Opens) (owner : String)
    (c : KnowledgeRevisionChunk) : Prop where
  documentName : TextSealed opens c.documentName
    ⟨owner, c.revisionId.str, frozenNameField c.sourceDocumentId⟩
  text : TextSealed opens c.text
    ⟨owner, c.revisionId.str, frozenTextField c.sourceDocumentId c.seq⟩
  metadata : JsonSealed opens c.metadata
    ⟨owner, c.revisionId.str, frozenMetadataField c.sourceDocumentId c.seq⟩

/-! ## Databases -/

namespace Database

/-- The owner of a document, as its bindings name it. -/
def documentOwner (db : Database) (id : Uuid) : String :=
  (db.document? id).elim "" (fun d => d.userId.str)

/-- The owner of a revision, as its bindings name it. -/
def revisionOwner (db : Database) (id : Uuid) : String :=
  (db.revisions.find? id).elim "" (fun r => r.userId.str)

/-- The database in the clear. -/
@[simps] def plaintext (opens : Opens) (db : Database) : Database where
  documents := db.documents.rewrite (Document.reveal opens) (Document.reveal_id opens)
  chunks := db.chunks.rewrite (fun c => c.reveal opens (db.documentOwner c.documentId))
    (fun c => c.reveal_id opens _)
  webpages := db.webpages.rewrite (fun p => p.reveal opens (db.documentOwner p.documentId))
    (fun p => p.reveal_documentId opens _)
  revisions := db.revisions
  revisionChunks := db.revisionChunks.rewrite
    (fun c => c.reveal opens (db.revisionOwner c.revisionId)) (fun c => c.reveal_id opens _)
  revisionWebpages := db.revisionWebpages
  erasedOwners := db.erasedOwners
  chunks_fk := by
    intro c hc
    obtain ⟨old, hold, rfl⟩ := List.mem_map.mp hc
    exact Table.exists_rewrite _ (db.chunks_fk old hold)
  webpages_fk := by
    intro p hp
    obtain ⟨old, hold, rfl⟩ := List.mem_map.mp hp
    exact Table.exists_rewrite _ (db.webpages_fk old hold)
  revisionChunks_fk := by
    intro c hc
    obtain ⟨old, hold, rfl⟩ := List.mem_map.mp hc
    exact db.revisionChunks_fk old hold
  revisionWebpages_fk := db.revisionWebpages_fk

/-- Every private column of the database stands for something. -/
structure Sealed (opens : Opens) (db : Database) : Prop where
  documents : ∀ d ∈ db.documents.rows, d.Sealed opens
  chunks : ∀ c ∈ db.chunks.rows, c.Sealed opens (db.documentOwner c.documentId)
  webpages : ∀ p ∈ db.webpages.rows, p.Sealed opens (db.documentOwner p.documentId)
  revisionChunks : ∀ c ∈ db.revisionChunks.rows, c.Sealed opens (db.revisionOwner c.revisionId)

variable {opens : Opens} {db : Database} {id : Uuid}

theorem sealed_empty : (empty : Database).Sealed opens := by
  constructor <;> simp [empty]

theorem documentOwner_of {d : Document} (h : db.document? id = some d) :
    db.documentOwner id = d.userId.str := by
  rw [documentOwner, h]
  rfl

theorem revisionOwner_of {r : KnowledgeRevision} (h : db.revisions.find? id = some r) :
    db.revisionOwner id = r.userId.str := by
  rw [revisionOwner, h]
  rfl

/-! ## Reads of the plaintext -/

@[simp] theorem document?_plaintext :
    (db.plaintext opens).document? id = (db.document? id).map (Document.reveal opens) :=
  Table.find?_rewrite _ _ (Document.reveal_id opens) _

@[simp] theorem webpage?_plaintext :
    (db.plaintext opens).webpage? id =
      (db.webpage? id).map (fun p => p.reveal opens (db.documentOwner id)) := by
  have hfind : (db.plaintext opens).webpage? id =
      (db.webpage? id).map (fun p => p.reveal opens (db.documentOwner p.documentId)) :=
    Table.find?_rewrite _ _ (fun p => p.reveal_documentId opens _) _
  rw [hfind]
  apply Option.map_congr
  intro p hp
  rw [webpage?_id hp]

@[simp] theorem chunksOf_plaintext :
    (db.plaintext opens).chunksOf id =
      (db.chunksOf id).map (fun c => c.reveal opens (db.documentOwner id)) := by
  simp only [chunksOf, plaintext_chunks, Table.rewrite_rows, List.filter_map]
  refine (List.map_congr_left ?_).trans (congrArg _ (List.filter_congr ?_))
  · intro c hc
    have hid : c.documentId = id := of_decide_eq_true (List.mem_filter.mp hc).2
    rw [hid]
  · intro c _
    rfl

@[simp] theorem frozenOf_plaintext :
    (db.plaintext opens).frozenOf id =
      (db.frozenOf id).map (fun c => c.reveal opens (db.revisionOwner id)) := by
  simp only [frozenOf, plaintext_revisionChunks, Table.rewrite_rows, List.filter_map]
  refine (List.map_congr_left ?_).trans (congrArg _ (List.filter_congr ?_))
  · intro c hc
    have hid : c.revisionId = id := of_decide_eq_true (List.mem_filter.mp hc).2
    rw [hid]
  · intro c _
    rfl

theorem Sealed.document (h : db.Sealed opens) {d : Document} (hd : db.document? id = some d) :
    d.Sealed opens :=
  h.documents d (document?_eq_some_iff.mp hd).1

theorem Sealed.webpage (h : db.Sealed opens) {p : DocumentWebpage}
    (hp : db.webpage? id = some p) : p.Sealed opens (db.documentOwner id) := by
  obtain ⟨hmem, rfl⟩ := webpage?_eq_some_iff.mp hp
  exact h.webpages p hmem

theorem Sealed.chunk (h : db.Sealed opens) {c : DocumentChunk} (hc : c ∈ db.chunksOf id) :
    c.Sealed opens (db.documentOwner id) := by
  obtain ⟨hmem, rfl⟩ := mem_chunksOf.mp hc
  exact h.chunks c hmem

end Database

end PortRag.Db
