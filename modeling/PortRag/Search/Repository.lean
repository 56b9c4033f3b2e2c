import PortRag.Knowledge.Revisions

set_option autoImplicit false

/-!
# The search repository

`rag/search/repository.py`.  A search ranks candidate rows by cosine distance;
`search_revision` ranks the frozen chunks of a revision together with the current chunks
of its live webpages.
-/

namespace PortRag.Search

open PortRag.Foundation PortRag.Db PortRag.Security PortRag.Ingest PortRag.Knowledge

/-- `SearchHit`. -/
structure SearchHit where
  chunkId : Uuid
  documentId : Uuid
  documentName : String
  text : String
  score : Rat
  metadata : List (String × String)
  seq : Int
  deriving DecidableEq, Inhabited

/-- A candidate row; `storageRevisionId` is null for a live chunk. -/
structure CandidateRow where
  chunkId : Uuid
  documentId : Uuid
  documentName : String
  text : String
  metadata : Json
  seq : Int
  embedding : Embedding
  storageRevisionId : Option Uuid
  deriving Inhabited

/-- The database's `cosine_distance` and Python's `str` of a JSON value. -/
structure SearchFunctions where
  cosineDistance : Embedding → Embedding → Rat
  str : Json → String

/-- A chunk of a document as a candidate. -/
def chunkCandidate (document : Document) (chunk : DocumentChunk) : CandidateRow where
  chunkId := chunk.id
  documentId := document.id
  documentName := document.name
  text := chunk.text
  metadata := chunk.metadata
  seq := chunk.seq
  embedding := chunk.embedding
  storageRevisionId := none

/-- A frozen chunk as a candidate. -/
def frozenCandidate (chunk : KnowledgeRevisionChunk) : CandidateRow where
  chunkId := chunk.id
  documentId := chunk.sourceDocumentId
  documentName := chunk.documentName
  text := chunk.text
  metadata := chunk.metadata
  seq := chunk.seq
  embedding := chunk.embedding
  storageRevisionId := some chunk.revisionId

/-- `ORDER BY distance LIMIT top_k`. -/
def nearest (lib : SearchFunctions) (query : Embedding) (topK : Nat)
    (rows : List CandidateRow) : List CandidateRow :=
  (rows.mergeSort (fun a b =>
    lib.cosineDistance a.embedding query ≤ lib.cosineDistance b.embedding query)).take topK

/-- `value is not None`. -/
def isPresent : Json → Bool
  | .null => false
  | _ => true

/-- `_string_metadata`. -/
def stringMetadata (lib : SearchFunctions) : Json → List (String × String)
  | .obj members => (members.filter (fun m => isPresent m.2)).map (fun m => (m.1, lib.str m.2))
  | _ => []

/-- `_hit`: a frozen chunk is read under the bindings of its revision, a live one under those
of its document. -/
def hit (lib : SearchFunctions) (pd : PrivateData) (query : Embedding) (userId : Uuid)
    (row : CandidateRow) : Except Exc SearchHit := do
  let resource := (row.storageRevisionId.getD row.documentId).str
  let start := if row.storageRevisionId.isSome then "document:" ++ row.documentId.str ++ ":"
    else ""
  let nameField := if row.storageRevisionId.isSome then
      "document:" ++ row.documentId.str ++ ":name"
    else "document:name"
  let name ← pd.readText row.documentName ⟨userId.str, resource, nameField⟩
  let text ← pd.readText row.text
    ⟨userId.str, resource, start ++ "chunk:" ++ toString row.seq ++ ":text"⟩
  let metadata ← pd.readJson row.metadata
    ⟨userId.str, resource, start ++ "chunk:" ++ toString row.seq ++ ":metadata"⟩
  pure {
    chunkId := row.chunkId
    documentId := row.documentId
    documentName := name
    text := text
    score := 1 - lib.cosineDistance row.embedding query
    metadata := stringMetadata lib metadata
    seq := row.seq }

/-- The candidates of `search`: the chunks of the owner's ready documents. -/
def searchCandidates (db : Database) (userId : Uuid) : List CandidateRow :=
  (db.documents.rows.filter (fun d => d.userId = userId ∧ d.status = .ready)).flatMap
    (fun d => (db.chunksOf d.id).map (chunkCandidate d))

/-- `SearchRepository.search`. -/
def search (lib : SearchFunctions) (pd : PrivateData) (db : Database) (userId : Uuid)
    (query : Embedding) (topK : Nat) : Except Exc (List SearchHit) := do
  lockActiveOwner db userId
  (nearest lib query topK (searchCandidates db userId)).mapM (hit lib pd query userId)

/-- Whether the source of a frozen chunk is a live member of its revision. -/
def selectedLiveSource (db : Database) (chunk : KnowledgeRevisionChunk) : Bool :=
  db.revisionWebpages.rows.any
    (fun m => m.revisionId = chunk.revisionId ∧ m.documentId = chunk.sourceDocumentId)

/-- The frozen branch of `search_revision`. -/
def frozenCandidates (db : Database) (revisionId userId : Uuid) : List CandidateRow :=
  if db.ownsRevision userId revisionId then
    ((db.frozenOf revisionId).filter (fun c => !selectedLiveSource db c)).map frozenCandidate
  else []

/-- The live rows of one member: the chunks of a ready webpage document of the owner. -/
def memberCandidates (db : Database) (userId : Uuid) (member : KnowledgeRevisionWebpage) :
    List CandidateRow :=
  match db.document? member.documentId, db.webpage? member.documentId with
  | some document, some _ =>
      if document.userId = userId ∧ document.status = .ready then
        (db.chunksOf document.id).map (chunkCandidate document)
      else []
  | _, _ => []

/-- The live branch of `search_revision`. -/
def liveCandidates (db : Database) (revisionId userId : Uuid) : List CandidateRow :=
  if db.ownsRevision userId revisionId then
    (db.membersOf revisionId).flatMap (memberCandidates db userId)
  else []

/-- Higher scores first. -/
def scoreOrder (lib : SearchFunctions) (query : Embedding) (a b : CandidateRow) : Bool :=
  1 - lib.cosineDistance b.embedding query ≤ 1 - lib.cosineDistance a.embedding query

/-- The rows of `search_revision`: the nearest of each branch, ranked together. -/
def revisionRows (lib : SearchFunctions) (db : Database) (userId revisionId : Uuid)
    (query : Embedding) (topK : Nat) : List CandidateRow :=
  ((nearest lib query topK (frozenCandidates db revisionId userId) ++
    nearest lib query topK (liveCandidates db revisionId userId)).mergeSort
      (scoreOrder lib query)).take topK

/-- `SearchRepository.search_revision`. -/
def searchRevision (lib : SearchFunctions) (pd : PrivateData) (db : Database)
    (userId revisionId : Uuid) (query : Embedding) (topK : Nat) :
    Except Exc (List SearchHit) := do
  lockActiveOwner db userId
  (revisionRows lib db userId revisionId query topK).mapM (hit lib pd query userId)

end PortRag.Search
