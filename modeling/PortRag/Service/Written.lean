import PortRag.Foundation.LastWrite
import PortRag.Webpages.Transitions
import PortRag.Service.Shown

set_option autoImplicit false

/-!
# What the writing calls write

The private fields of the service, the columns of a store in the clear that hold them, and for
every writing call the update that it declares: which fields it writes, in terms of its
arguments, and which it removes.  A revision is the one call that writes what it has read: a
frozen field is a copy of the field of its source.

`ServiceCall.takes` shows of every accepted call on a store in the clear that its columns take
exactly this update.
-/

namespace PortRag.Service

open PortRag.Foundation PortRag.Db PortRag.Security PortRag.Http PortRag.Ingest PortRag.Webpages
  PortRag.Knowledge PortRag.Search

/-! ## Fields and columns -/

/-- A private field: of a document, of its webpage, of one of its chunks, or of a chunk frozen in
a revision. -/
inductive PrivateField where
  | name (documentId : Uuid)
  | error (documentId : Uuid)
  | url (documentId : Uuid) (index : Nat)
  | content (documentId : Uuid)
  | syncError (documentId : Uuid)
  | text (documentId chunkId : Uuid)
  | metadata (documentId chunkId : Uuid)
  | frozenName (revisionId chunkId : Uuid)
  | frozenText (revisionId chunkId : Uuid)
  | frozenMetadata (revisionId chunkId : Uuid)
  deriving DecidableEq

/-- The document that a field belongs to; a frozen field belongs to none. -/
def PrivateField.document? : PrivateField → Option Uuid
  | .name id | .error id | .url id _ | .content id | .syncError id => some id
  | .text id _ | .metadata id _ => some id
  | .frozenName _ _ | .frozenText _ _ | .frozenMetadata _ _ => none

/-- The document whose chunk a field belongs to. -/
def PrivateField.chunkOf? : PrivateField → Option Uuid
  | .text id _ | .metadata id _ => some id
  | _ => none

/-- The value of a nullable column. -/
def nullable : Option String → Json
  | none => .null
  | some text => .str text

/-- The chunk of a document with this identifier. -/
def chunk? (db : Database) (documentId chunkId : Uuid) : Option DocumentChunk :=
  (db.chunksOf documentId).find? (fun c => c.id = chunkId)

/-- The frozen chunk of a revision with this identifier. -/
def frozen? (db : Database) (revisionId chunkId : Uuid) : Option KnowledgeRevisionChunk :=
  (db.frozenOf revisionId).find? (fun c => c.id = chunkId)

/-- The column of a field, where its row is there. -/
def column (db : Database) : PrivateField → Option Json
  | .name id => (db.document? id).map (fun d => .str d.name)
  | .error id => (db.document? id).map (fun d => nullable d.error)
  | .url id index => (db.webpage? id).bind (fun p => p.urls[index]?.map Json.str)
  | .content id => (db.webpage? id).map (fun p => .str p.content)
  | .syncError id => (db.webpage? id).map (fun p => nullable p.syncError)
  | .text id chunkId => (chunk? db id chunkId).map (fun c => .str c.text)
  | .metadata id chunkId => (chunk? db id chunkId).map (fun c => c.metadata)
  | .frozenName id chunkId => (frozen? db id chunkId).map (fun c => .str c.documentName)
  | .frozenText id chunkId => (frozen? db id chunkId).map (fun c => .str c.text)
  | .frozenMetadata id chunkId => (frozen? db id chunkId).map (fun c => c.metadata)

/-! ## The update of a call -/

/-- A field that a call writes, and where its value comes from. -/
abbrev Assignment := PrivateField × Source PrivateField Json

/-- A field written with a text. -/
def written (field : PrivateField) (text : String) : Assignment := (field, .value (.str text))

/-- A nullable field set to null. -/
def cleared (field : PrivateField) : Assignment := (field, .value .null)

/-- The chunks that a publication writes: chunk number `k` to the row `uuid4 k`. -/
def chunkAssignments (uuid4 : Nat → Uuid) (documentId : Uuid) (chunks : List IngestChunk) :
    List Assignment :=
  chunks.zipIdx.flatMap (fun z =>
    [written (.text documentId (uuid4 z.2)) z.1.text,
      (.metadata documentId (uuid4 z.2), .value z.1.metadata)])

/-- The URLs that a registration stores: each normalized, without repetitions. -/
def storedUrls (lib : UrlFunctions) (urls : List String) : List String :=
  match urls.mapM lib.normalizeUrl with
  | .ok normalized => normalized.eraseDups
  | .error _ => []

/-- The stored hash of a webpage document differs from this one. -/
def hashDiffers (db : Database) (documentId : Uuid) (contentHash : Option String) : Bool :=
  (db.webpage? documentId).any (fun p => p.contentHash ≠ contentHash)

/-- The chunks of the selected documents, in the order of the query of a revision. -/
def selectedChunks (db : Database) (userId : Uuid) (selected : Option (List Uuid)) :
    List (Document × DocumentChunk) :=
  ((db.documents.rows.filter (selectable userId selected)).flatMap
      (fun d => (db.chunksOf d.id).map (fun c => (d, c)))).mergeSort
    (fun a b => a.1.id < b.1.id || (a.1.id = b.1.id && a.2.seq ≤ b.2.seq))

/-- The chunks that a revision of this selection copies, by document and chunk: those of the
selected documents without a webpage. -/
def copiedChunks (db : Database) (userId : Uuid) (selected : Option (List Uuid)) :
    List (Uuid × Uuid) :=
  ((selectedChunks db userId selected).filter (fun s => (db.webpage? s.1.id).isNone)).map
    (fun s => (s.1.id, s.2.id))

/-- The fields that a revision writes: row `uuid4 k` is a copy of chunk number `k`. -/
def frozenAssignments (uuid4 : Nat → Uuid) (revisionId : Uuid) (sources : List (Uuid × Uuid)) :
    List Assignment :=
  sources.zipIdx.flatMap (fun z =>
    [(.frozenName revisionId (uuid4 z.2), .copy (.name z.1.1)),
      (.frozenText revisionId (uuid4 z.2), .copy (.text z.1.1 z.1.2)),
      (.frozenMetadata revisionId (uuid4 z.2), .copy (.metadata z.1.1 z.1.2))])

/-- The answer says that the call found what it changes. -/
def accepted : Except Exc ServiceValue → Bool
  | .ok (.flag done) => done
  | .ok (.claim claim) => claim.isSome
  | _ => true

/-- The fields that a call writes on a database, by its arguments and its answer. -/
def ServiceCall.assignments (db : Database) (answer : Except Exc ServiceValue) :
    ServiceCall → List Assignment
  | .createDocument id _ _ _ name _ => [written (.name id) name, cleared (.error id)]
  | .createWebpage lib id _ _ _ name urls _ =>
      [written (.name id) (displayName lib name (storedUrls lib urls)), cleared (.error id),
        written (.content id) "", cleared (.syncError id)] ++
      (storedUrls lib urls).zipIdx.map (fun u => written (.url id u.2) u.1)
  | .enqueue _ id userId =>
      if (select db id userId).isSome then
        cleared (.syncError id) ::
          if hashDiffers db id none then [] else [cleared (.error id)]
      else []
  | .setAutoSync _ _ _ _ => []
  | .claimWebpage _ _ id _ => if accepted answer then [cleared (.syncError id)] else []
  | .finish uuid4 _ claim content contentHash chunks _ =>
      if accepted answer then
        [cleared (.error claim.documentId), cleared (.syncError claim.documentId)] ++
        if hashDiffers db claim.documentId (some contentHash) then
          written (.content claim.documentId) content ::
            chunkAssignments uuid4 claim.documentId (chunks.getD [])
        else []
      else []
  | .fail _ claim error =>
      if accepted answer then
        written (.syncError claim.documentId) (truncate error 1000) ::
          if hashDiffers db claim.documentId none then []
          else [written (.error claim.documentId) (truncate error 1000)]
      else []
  | .replaceChunks uuid4 _ id chunks _ => cleared (.error id) :: chunkAssignments uuid4 id chunks
  | .markFailed _ id error => [written (.error id) (truncate error 4000)]
  | .markStorageUnavailable _ id => [written (.error id) storageUnavailable]
  | .replaceEmbeddings _ id _ _ => if accepted answer then [cleared (.error id)] else []
  | .markReindexFailed _ id _ error =>
      if accepted answer then [written (.error id) (truncate error 4000)] else []
  | .createRevision uuid4 revisionId _ userId selected =>
      frozenAssignments uuid4 revisionId (copiedChunks db userId selected)
  | .deleteDocument _ _ => []

/-- The fields that a call removes: a publication the chunks it replaces, a deletion every field
of its document. -/
def ServiceCall.removals (db : Database) (answer : Except Exc ServiceValue) (field : PrivateField) :
    ServiceCall → Prop
  | .finish _ _ claim _ contentHash _ _ => accepted answer = true ∧
      hashDiffers db claim.documentId (some contentHash) = true ∧
      field.chunkOf? = some claim.documentId
  | .replaceChunks _ _ id _ _ => field.chunkOf? = some id
  | .deleteDocument id _ => accepted answer = true ∧ field.document? = some id
  | _ => False

/-- The update that a call declares. -/
def ServiceCall.update (db : Database) (answer : Except Exc ServiceValue) (call : ServiceCall) :
    Update PrivateField Json :=
  .ofList (call.assignments db answer) (fun field => call.removals db answer field)

/-! ## Statements and columns -/

section Columns

variable {db db' : Database} {id : Uuid}

/-- A chunk row is found by its identifier. -/
theorem chunk?_of_mem {c : DocumentChunk} (h : c ∈ db.chunksOf id) : chunk? db id c.id = some c :=
  Table.find?_among (fun _ hc => (Database.mem_chunksOf.mp hc).1) h

/-- A chunk that is found is a row of its document with this identifier. -/
theorem mem_of_chunk? {chunkId : Uuid} {c : DocumentChunk} (h : chunk? db id chunkId = some c) :
    c ∈ db.chunksOf id ∧ c.id = chunkId :=
  ⟨List.mem_of_find?_eq_some h, by simpa using List.find?_some h⟩

/-- A frozen row is found by its identifier. -/
theorem frozen?_of_mem {c : KnowledgeRevisionChunk} (h : c ∈ db.frozenOf id) :
    frozen? db id c.id = some c :=
  Table.find?_among (fun _ hc => (List.mem_filter.mp hc).1) h

/-- A frozen chunk that is found is a row of its revision with this identifier. -/
theorem mem_of_frozen? {chunkId : Uuid} {c : KnowledgeRevisionChunk}
    (h : frozen? db id chunkId = some c) : c ∈ db.frozenOf id ∧ c.id = chunkId :=
  ⟨List.mem_of_find?_eq_some h, by simpa using List.find?_some h⟩

/-- The columns after an update of a document row that keeps its name. -/
theorem column_updateDocument {d old : Document} (hold : db.document? d.id = some old)
    (hname : d.name = old.name) (field : PrivateField) :
    column (db.updateDocument d) field =
      if field = .error d.id then some (nullable d.error) else column db field := by
  have hfind := Database.document?_updateDocument hold
  cases field with
  | name other =>
      by_cases hother : other = d.id
      · subst hother
        simp [column, hfind, hold, hname]
      · simp [column, hfind, hother]
  | error other => by_cases hother : other = d.id <;> simp [column, hfind, hother]
  | _ => rfl

/-- The columns after an update of a webpage row that keeps its URLs. -/
theorem column_updateWebpage {p old : DocumentWebpage} (hold : db.webpage? p.documentId = some old)
    (hurls : p.urls = old.urls) (field : PrivateField) :
    column (db.updateWebpage p) field =
      if field = .syncError p.documentId then some (nullable p.syncError)
      else if field = .content p.documentId then some (.str p.content) else column db field := by
  have hfind := Database.webpage?_updateWebpage hold
  cases field with
  | url other index =>
      by_cases hother : other = p.documentId
      · subst hother
        simp [column, hfind, hold, hurls]
      · simp [column, hfind, hother]
  | content other => by_cases hother : other = p.documentId <;> simp [column, hfind, hother]
  | syncError other => by_cases hother : other = p.documentId <;> simp [column, hfind, hother]
  | _ => rfl

/-- The columns after an update of both rows of a webpage document. -/
theorem column_updateRows {v : PageView} (hv : viewOf db id = some v) {d : Document}
    {p : DocumentWebpage} (hd : d.id = id) (hp : p.documentId = id)
    (hname : d.name = v.document.name) (hurls : p.urls = v.page.urls) (field : PrivateField) :
    column ((db.updateDocument d).updateWebpage p) field =
      if field = .syncError id then some (nullable p.syncError)
      else if field = .content id then some (.str p.content)
      else if field = .error id then some (nullable d.error)
      else column db field := by
  obtain ⟨hdocument, hpage, -⟩ := viewOf_eq_some_iff.mp hv
  subst hd
  have hpage' : (db.updateDocument d).webpage? p.documentId = some v.page := by
    rw [Database.webpage?_updateDocument, hp]
    exact hpage
  rw [column_updateWebpage hpage' hurls, hp, column_updateDocument hdocument hname]

/-- The columns of both rows of a webpage document. -/
theorem column_of_viewOf {v : PageView} (hv : viewOf db id = some v) :
    column db (.error id) = some (nullable v.document.error) ∧
      column db (.content id) = some (.str v.page.content) ∧
      column db (.syncError id) = some (nullable v.page.syncError) := by
  obtain ⟨hdocument, hpage, -⟩ := viewOf_eq_some_iff.mp hv
  simp [column, hdocument, hpage]

/-- The stored hash differs, said of the rows. -/
theorem hashDiffers_of_viewOf {v : PageView} (hv : viewOf db id = some v)
    (contentHash : Option String) :
    hashDiffers db id contentHash = true ↔ v.page.contentHash ≠ contentHash := by
  rw [hashDiffers, (viewOf_eq_some_iff.mp hv).2.1]
  simp

end Columns

end PortRag.Service
