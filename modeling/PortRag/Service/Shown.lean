import PortRag.Service.Calls
import PortRag.Security.Plaintext

set_option autoImplicit false

/-!
# What the reading methods show of a store in the clear

`ServiceRead.shown` says what each reading method is to return from the columns of a store
whose private columns are in the clear: the names, errors, URLs, contents, texts and metadata
that stand in the rows, in the rows and the order that the method selects.  It is written
without the helpers that decrypt, so that a reader of an encrypted store can be held against
it; on a store in the clear without fenced owners the methods do return it.
-/

namespace PortRag.Service

open PortRag.Foundation PortRag.Db PortRag.Security PortRag.Http PortRag.Ingest PortRag.Webpages
  PortRag.Knowledge PortRag.Search

/-! ## Values shown -/

/-- The record of a document: its own name and error, and the URLs and sync error of its
webpage row. -/
def shownRecord (d : Document) (page : Option DocumentWebpage) : DocumentRecord where
  id := d.id
  userId := d.userId
  knowledgeKey := d.knowledgeKey
  name := d.name
  mime := d.mime
  status := d.status
  error := d.error
  createdAt := d.createdAt
  updatedAt := d.updatedAt
  webpage := page.map webpageState

/-- The detail of a webpage document: its record and its content. -/
def shownDetail (d : Document) (page : DocumentWebpage) : WebpageDetail :=
  ⟨shownRecord d (some page), page.content⟩

/-- A chunk of a preview: its text, and the URL that its metadata names. -/
def shownWebpageChunk (c : DocumentChunk) : WebpageChunk :=
  ⟨c.seq, c.text,
    ((c.metadata.get? "source_url").orElse (fun _ => c.metadata.get? "url")).getD (.str "")⟩

/-- A chunk for reindexing: its text and its metadata. -/
def shownIngestChunk (c : DocumentChunk) : IngestChunk := ⟨c.seq, c.text, c.metadata⟩

/-- A search hit: the name, the text and the metadata of its row. -/
def shownHit (lib : SearchFunctions) (query : Embedding) (row : CandidateRow) : SearchHit where
  chunkId := row.chunkId
  documentId := row.documentId
  documentName := row.documentName
  text := row.text
  score := 1 - lib.cosineDistance row.embedding query
  metadata := stringMetadata lib row.metadata
  seq := row.seq

/-- What a reading method is to return from the columns of a store in the clear. -/
def ServiceRead.shown : ServiceRead → Database → ReadValue
  | .listDocuments userId, db =>
      .records (((db.documents.rows.filter (fun d => d.userId = userId)).mergeSort
        Document.listedBefore).map (fun d => shownRecord d (db.webpage? d.id)))
  | .getDocument documentId userId, db =>
      .record (((db.document? documentId).filter (fun d => d.userId = userId)).map
        (fun d => shownRecord d (db.webpage? documentId)))
  | .getWebpage documentId userId, db =>
      .webpage ((select db documentId userId).map (fun rows => shownDetail rows.1 rows.2))
  | .getChunks documentId userId offset limit, db =>
      .preview ((select db documentId userId).map (fun _ => {
        documentId := documentId
        userId := userId
        chunks := (((orderedChunks db documentId).drop offset).take limit).map shownWebpageChunk
        total := (db.chunksOf documentId).length }))
  | .getChunksForReindex documentId userId, db =>
      .chunks ((reindexable db documentId userId).map
        (fun _ => (orderedChunks db documentId).map shownIngestChunk))
  | .search lib userId query topK, db =>
      .hits ((nearest lib query topK (searchCandidates db userId)).map (shownHit lib query))
  | .searchRevision lib userId revisionId query topK, db =>
      .hits ((revisionRows lib db userId revisionId query topK).map (shownHit lib query))
  | .getRevision revisionId userId, db =>
      .revision (((db.revisions.find? revisionId).filter (fun r => r.userId = userId)).map
        (summary db))
  | .listRevisions userId, db =>
      .revisions (((db.revisions.rows.filter (fun r => r.userId = userId)).mergeSort
        Knowledge.listedBefore).map (summary db))

/-! ## Reads of a store in the clear -/

section Clear

variable {db : Database}

/-- A nullable column in the clear is read as it stands. -/
theorem readOptional_plain (value : Option String) (binding : StorageBinding) :
    PrivateData.plain.readOptional value binding = .ok value := by
  cases value <;> rfl

/-- A URL list in the clear is read as it stands. -/
theorem readUrls_plain (owner resource : String) (urls : List String) :
    readUrls .plain owner resource urls = .ok urls := by
  have hmap := mapM_ok_map (ε := Exc) (fun u : String × Nat => u.1) urls.zipIdx
  rwa [List.zipIdx_map_fst] at hmap

/-- A record is read from rows in the clear as they stand. -/
theorem toPrivateRecord_plain (d : Document) (page : Option DocumentWebpage) :
    toPrivateRecord .plain d page = .ok (shownRecord d page) := by
  have hpage : readWebpage .plain d.userId.str d.id.str page = .ok (page.map webpageState) := by
    cases page with
    | none => rfl
    | some p =>
        simp only [readWebpage, readUrls_plain, readOptional_plain]
        rfl
  simp only [toPrivateRecord, hpage, readOptional_plain]
  rfl

/-- A detail is read from rows in the clear as they stand. -/
theorem detail_plain (d : Document) (page : DocumentWebpage) :
    detail .plain d page = .ok (shownDetail d page) := by
  simp only [detail, toPrivateRecord_plain]
  rfl

/-- The detail read after a commit, of a store in the clear. -/
theorem committedDetail_plain (rows : Option (Document × DocumentWebpage)) :
    committedDetail .plain rows = .ok (rows.map (fun r => shownDetail r.1 r.2)) := by
  cases rows with
  | none => rfl
  | some r =>
      simp only [committedDetail, detail_plain]
      rfl

end Clear

end PortRag.Service
