import PortRag.Db.Statements
import PortRag.Security.PrivateData
import PortRag.Foundation.Except

set_option autoImplicit false

/-!
# Ingest types and the chunk rows both publishers write

`rag/ingest/types.py`, and the row list that `replace_chunks_and_mark_ready` and
`WebpageRepository._complete` build in the same words.
-/

namespace PortRag.Ingest

open PortRag.Foundation PortRag.Db PortRag.Security

/-- `IngestChunk`. -/
structure IngestChunk where
  seq : Int
  text : String
  metadata : Json
  deriving Inhabited

/-- `f"chunk:{seq}:text"`. -/
def chunkTextField (seq : Int) : String := "chunk:" ++ toString seq ++ ":text"

/-- `f"chunk:{seq}:metadata"`. -/
def chunkMetadataField (seq : Int) : String := "chunk:" ++ toString seq ++ ":metadata"

/-- One `DocumentChunk` of a publication. -/
def chunkRow (pd : PrivateData) (owner : String) (documentId rowId : Uuid) (chunk : IngestChunk)
    (embedding : Embedding) : Except Exc DocumentChunk := do
  let text ← pd.encryptText chunk.text ⟨owner, documentId.str, chunkTextField chunk.seq⟩
  let metadata ← pd.encryptJson chunk.metadata
    ⟨owner, documentId.str, chunkMetadataField chunk.seq⟩
  pure {
    id := rowId
    documentId := documentId
    seq := chunk.seq
    text := text
    metadata := metadata
    embedding := embedding }

/-- The `DocumentChunk` rows for `zip(chunks, embeddings, strict=True)`; `uuid4 i` is the
identifier of row `i`. -/
def chunkRows (pd : PrivateData) (uuid4 : Nat → Uuid) (owner : String) (documentId : Uuid)
    (chunks : List IngestChunk) (embeddings : List Embedding) :
    Except Exc (List DocumentChunk) := do
  let rows ← (chunks.zip embeddings).zipIdx.mapM
    (fun z => chunkRow pd owner documentId (uuid4 z.2) z.1.1 z.1.2)
  if chunks.length = embeddings.length then pure rows
  else .error (.valueError "zip() arguments have different lengths")

/-! ## What a chunk row stands for -/

/-- The row stands for this chunk and embedding of its document. -/
structure RowStands (opens : Opens) (owner : String) (id : Uuid)
    (source : IngestChunk × Embedding) (row : DocumentChunk) : Prop where
  documentId : row.documentId = id
  seq : row.seq = source.1.seq
  text : TextStands opens row.text ⟨owner, id.str, chunkTextField source.1.seq⟩ source.1.text
  metadata : JsonStands opens row.metadata ⟨owner, id.str, chunkMetadataField source.1.seq⟩
    source.1.metadata
  embedding : row.embedding = source.2

/-- The rows stand for these chunks with these embeddings, in order. -/
def RowsStand (opens : Opens) (owner : String) (documentId : Uuid) (chunks : List IngestChunk)
    (embeddings : List Embedding) (rows : List DocumentChunk) : Prop :=
  chunks.length = embeddings.length ∧
    List.Forall₂ (RowStands opens owner documentId) (chunks.zip embeddings) rows

section Laws

variable {opens : Opens} {cipher : PrivateDataCipher} {owner : String} {documentId : Uuid}

theorem RowsStand.documentId_of_mem {chunks : List IngestChunk} {embeddings : List Embedding}
    {rows : List DocumentChunk} (h : RowsStand opens owner documentId chunks embeddings rows) :
    ∀ row ∈ rows, row.documentId = documentId := by
  have hrows := h.2
  intro row hrow
  obtain ⟨i, hi, rfl⟩ := List.mem_iff_getElem.mp hrow
  exact (hrows.get (hrows.length_eq ▸ hi) hi).documentId

theorem RowsStand.length_eq {chunks : List IngestChunk} {embeddings : List Embedding}
    {rows : List DocumentChunk} (h : RowsStand opens owner documentId chunks embeddings rows) :
    rows.length = chunks.length := by
  rw [← h.2.length_eq, List.length_zip, ← h.1, Nat.min_self]

theorem chunkRow_stands (huses : cipher.Uses opens) {rowId : Uuid} {chunk : IngestChunk}
    {embedding : Embedding} {row : DocumentChunk}
    (h : chunkRow cipher.privateData owner documentId rowId chunk embedding = .ok row) :
    RowStands opens owner documentId (chunk, embedding) row := by
  obtain ⟨text, htext, h⟩ := bind_eq_ok.mp h
  obtain ⟨metadata, hmetadata, h⟩ := bind_eq_ok.mp h
  obtain rfl := pure_eq_ok.mp h
  exact ⟨rfl, rfl, encryptText_stands huses htext, encryptJson_stands huses hmetadata, rfl⟩

/-- The rows of an accepted publication stand for its arguments. -/
theorem chunkRows_stand (huses : cipher.Uses opens) {uuid4 : Nat → Uuid}
    {chunks : List IngestChunk} {embeddings : List Embedding} {rows : List DocumentChunk}
    (h : chunkRows cipher.privateData uuid4 owner documentId chunks embeddings = .ok rows) :
    RowsStand opens owner documentId chunks embeddings rows := by
  obtain ⟨built, hbuilt, h⟩ := bind_eq_ok.mp h
  split at h
  · next hlength =>
      obtain rfl := pure_eq_ok.mp h
      have hrows := (mapM_eq_ok.mp hbuilt).imp (fun _ _ => chunkRow_stands huses)
      refine ⟨hlength, ?_⟩
      rw [← List.zipIdx_map_fst 0 (chunks.zip embeddings)]
      exact List.forall₂_map_left_iff.mpr hrows
  · cases h

end Laws

end PortRag.Ingest
