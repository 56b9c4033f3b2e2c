import PortRag.Service.ReadPaths
import PortRag.Service.Shown

set_option autoImplicit false

/-!
# The writing methods

Each writing method on a sealed database leaves a sealed database, and imitates itself on the
plaintext: it stores under the binding that `reveal` opens.
-/

namespace PortRag.Service

open PortRag.Foundation PortRag.Db PortRag.Security PortRag.Http PortRag.Ingest PortRag.Webpages
  PortRag.Knowledge PortRag.Search

variable {opens : Opens} {cipher : PrivateDataCipher} {db : Database}

/-! ## Outcomes -/

/-- Two committed databases: a sealed one and its plaintext. -/
def Mirrors (opens : Opens) (db p : Database) : Prop := db.Sealed opens ∧ p = db.plaintext opens

/-- An outcome `o` on `db` imitates an outcome `q` on the plaintext: the results are the same
and the plaintext is kept, or the encryption service failed and the database is left alone.  A
call that raises and leaves the database alone apart, the call on the plaintext succeeds: where
the service fails only after the commit, the plaintext is still read. -/
structure Imitates (opens : Opens) (cipher : PrivateDataCipher) (db : Database) {α : Type}
    (o q : Outcome α) : Prop where
  stays : o.db.Sealed opens
  result : Follows (cipher.Fails opens) Eq o.result q.result
  moves : q.db = o.db.plaintext opens ∨
    (o.db = db ∧ ∃ e, o.result = .error e ∧ cipher.Fails opens e)
  succeeds : (o.db = db ∧ ∃ e, o.result = .error e) ∨ ∃ a, q.result = .ok a

theorem Imitates.ofTransaction {α : Type} (h : db.Sealed opens)
    {t t' : Except Exc (α × Database)}
    (ht : Follows (cipher.Fails opens) (fun x y => x.1 = y.1 ∧ Mirrors opens x.2 y.2) t t') :
    Imitates opens cipher db (.ofTransaction db t) (.ofTransaction (db.plaintext opens) t') := by
  rcases Outcome.ofTransaction_cases db t with ⟨e, rfl, ho⟩ | ⟨a, db', rfl, ho⟩
  · rw [ho]
    rcases ht.2 e rfl with he | rfl
    · exact ⟨h, .failed he _, .inr ⟨rfl, e, rfl, he⟩, .inl ⟨rfl, e, rfl⟩⟩
    · exact ⟨h, .error e, .inl rfl, .inl ⟨rfl, e, rfl⟩⟩
  · rw [ho]
    obtain ⟨⟨b, p'⟩, rfl, hab, hsealed, hp⟩ := ht.1 _ rfl
    exact ⟨hsealed, .ok hab, .inl hp, .inr ⟨b, rfl⟩⟩

theorem Imitates.afterCommit {α β γ : Type} (h : db.Sealed opens) {R : β → γ → Prop}
    {t : Except Exc (β × Database)} {t' : Except Exc (γ × Database)} {read : β → Except Exc α}
    {read' : γ → Except Exc α}
    (ht : Follows (cipher.Fails opens) (fun x y => R x.1 y.1 ∧ Mirrors opens x.2 y.2) t t')
    (hread : ∀ b c, R b c → Follows (cipher.Fails opens) Eq (read b) (read' c))
    (hclear : ∀ c, ∃ a, read' c = .ok a) :
    Imitates opens cipher db (.afterCommit db t read)
      (.afterCommit (db.plaintext opens) t' read') := by
  rcases Outcome.afterCommit_cases db t read with ⟨e, rfl, ho⟩ | ⟨b, db', rfl, ho⟩
  · rw [ho]
    rcases ht.2 e rfl with he | rfl
    · exact ⟨h, .failed he _, .inr ⟨rfl, e, rfl, he⟩, .inl ⟨rfl, e, rfl⟩⟩
    · exact ⟨h, .error e, .inl rfl, .inl ⟨rfl, e, rfl⟩⟩
  · rw [ho]
    obtain ⟨⟨c, p'⟩, rfl, hbc, hsealed, hp⟩ := ht.1 _ rfl
    exact ⟨hsealed, hread b c hbc, .inl hp, .inr (hclear c)⟩

theorem Imitates.map {α β : Type} {o q : Outcome α} (h : Imitates opens cipher db o q)
    (f : α → β) : Imitates opens cipher db (mapOutcome f o) (mapOutcome f q) := by
  refine ⟨h.stays, h.result.map (fun _ _ hab => congrArg f hab), ?_, ?_⟩
  · rcases h.moves with hdb | ⟨hdb, e, he, hfails⟩
    · exact .inl hdb
    · exact .inr ⟨hdb, e, by rw [mapOutcome_result, he]; rfl, hfails⟩
  · rcases h.succeeds with ⟨hdb, e, he⟩ | ⟨a, ha⟩
    · exact .inl ⟨hdb, e, by rw [mapOutcome_result, he]; rfl⟩
    · exact .inr ⟨f a, by rw [mapOutcome_result, ha]; rfl⟩

/-! ## Statements -/

theorem insertDocument_follows {F : Exc → Prop} (h : db.Sealed opens) {d : Document}
    (hd : d.Sealed opens) :
    Follows F (Mirrors opens) (db.insertDocument d)
      ((db.plaintext opens).insertDocument (d.reveal opens)) := by
  rw [Database.insertDocument_plaintext]
  exact .of_map (fun db' hdb => ⟨h.insertDocument hd hdb, rfl⟩)

theorem insertWebpage_follows {F : Exc → Prop} (h : db.Sealed opens) {p : DocumentWebpage}
    (hp : p.Sealed opens (db.documentOwner p.documentId)) :
    Follows F (Mirrors opens) (db.insertWebpage p)
      ((db.plaintext opens).insertWebpage (p.reveal opens (db.documentOwner p.documentId))) := by
  rw [Database.insertWebpage_plaintext]
  exact .of_map (fun db' hdb => ⟨h.insertWebpage hp hdb, rfl⟩)

theorem insertChunks_follows {F : Exc → Prop} (h : db.Sealed opens) {rows : List DocumentChunk}
    (hrows : ∀ c ∈ rows, c.Sealed opens (db.documentOwner c.documentId)) :
    Follows F (Mirrors opens) (db.insertChunks rows)
      ((db.plaintext opens).insertChunks (Database.revealChunks opens db rows)) := by
  rw [Database.insertChunks_plaintext]
  exact .of_map (fun db' hdb => ⟨h.insertChunks hrows hdb, rfl⟩)

/-- The update of a document row. -/
theorem Mirrors.updateDocument {p : Database} (h : Mirrors opens db p) {d old : Document}
    (hold : db.document? d.id = some old) (howner : d.userId = old.userId)
    (hd : d.Sealed opens) :
    Mirrors opens (db.updateDocument d) (p.updateDocument (d.reveal opens)) := by
  obtain ⟨hsealed, rfl⟩ := h
  exact ⟨hsealed.updateDocument hold howner hd, (Database.plaintext_updateDocument hold howner).symm⟩

/-- The update of both rows of a webpage document. -/
theorem Mirrors.updateRows {p : Database} (h : Mirrors opens db p) {d old : Document}
    {page : DocumentWebpage} (hold : db.document? d.id = some old)
    (howner : d.userId = old.userId) (hd : d.Sealed opens) (hid : page.documentId = d.id)
    (hpage : page.Sealed opens d.userId.str) :
    Mirrors opens ((db.updateDocument d).updateWebpage page)
      ((p.updateDocument (d.reveal opens)).updateWebpage (page.reveal opens d.userId.str)) := by
  obtain ⟨hsealed, hp⟩ := h.updateDocument hold howner hd
  have hname : (db.updateDocument d).documentOwner page.documentId = d.userId.str := by
    rw [Database.documentOwner_updateDocument hold howner, hid, Database.documentOwner_of hold,
      howner]
  refine ⟨hsealed.updateWebpage (hname ▸ hpage), ?_⟩
  rw [Database.plaintext_updateWebpage, hname, hp]

/-! ## Documents -/

/-- A registered document in the clear. -/
theorem processingDocument_reveal {documentId userId : Uuid} {name stored : String}
    (knowledgeKey mime : String) (now : Time)
    (h : TextStands opens stored ⟨userId.str, documentId.str, "document:name"⟩ name) :
    (processingDocument documentId userId knowledgeKey stored mime now).reveal opens =
        processingDocument documentId userId knowledgeKey name mime now ∧
      (processingDocument documentId userId knowledgeKey stored mime now).Sealed opens := by
  constructor
  · simp [processingDocument, Document.reveal, Document.binding, revealText_of_stands h]
  · exact ⟨h.reveal, fun e he => by cases he⟩

theorem createProcessingDocument_imitates (huses : cipher.Uses opens) (h : db.Sealed opens)
    (documentId : Uuid) (now : Time) (userId : Uuid) (knowledgeKey name mime : String) :
    Imitates opens cipher db
      (createProcessingDocument cipher.privateData documentId now db userId knowledgeKey name mime)
      (createProcessingDocument .plain documentId now (db.plaintext opens) userId knowledgeKey
        name mime) := by
  refine .afterCommit (R := fun d d' => d' = d.reveal opens ∧ d.Sealed opens) h ?_ ?_
    (fun d => ⟨_, toPrivateRecord_plain d none⟩)
  · refine .bind (.refl (fun _ => rfl) _) ?_
    rintro _ _ -
    refine .bind (follows_of_write (encryptText_follows huses name)) ?_
    rintro stored _ ⟨rfl, hname⟩
    obtain ⟨hreveal, hsealed⟩ := processingDocument_reveal knowledgeKey mime now hname
    rw [← hreveal]
    refine .bind (.mapError (insertDocument_follows h hsealed) (fun _ he => he)) ?_
    rintro db' p' hmirrors
    exact .pure ⟨⟨rfl, hsealed⟩, hmirrors⟩
  · rintro d _ ⟨rfl, hd⟩
    refine follows_of_read (toPrivateRecord_follows huses hd ?_ ?_)
    · rintro _ ⟨⟩
    · rintro _ ⟨⟩

theorem deleteDocument_imitates (h : db.Sealed opens) (documentId userId : Uuid) :
    Imitates opens cipher db (Http.deleteDocument db documentId userId)
      (Http.deleteDocument (db.plaintext opens) documentId userId) := by
  refine .ofTransaction h ?_
  refine .bind (.refl (fun _ => rfl) _) ?_
  rintro _ _ -
  rw [Database.deleteDocument_plaintext]
  exact .pure ⟨rfl, h.keepDocuments _, rfl⟩

/-! ## The ingest store -/

/-- The required document in the clear. -/
theorem requireDocument_follows {F : Exc → Prop} (documentId : Uuid) :
    Follows F (fun d d' => d' = d.reveal opens ∧ db.document? documentId = some d)
      (requireDocument db documentId) (requireDocument (db.plaintext opens) documentId) := by
  unfold requireDocument
  rw [Database.document?_plaintext]
  cases hd : db.document? documentId with
  | none => exact .error _
  | some d =>
      refine .bind (.refl (fun _ => rfl) _) ?_
      rintro _ _ -
      exact .pure ⟨rfl, rfl⟩

/-- A settled document in the clear. -/
theorem settledDocument_reveal (d : Document) (status : DocumentStatus) (error : Option String)
    (now : Time) :
    (settledDocument d status error now).reveal opens =
      settledDocument (d.reveal opens) status
        (error.map (fun e => revealText opens e (d.binding "document:error"))) now := rfl

theorem settledDocument_sealed {d : Document} (hd : d.Sealed opens) (status : DocumentStatus)
    {error : Option String} (now : Time)
    (herror : ∀ e ∈ error, TextSealed opens e (d.binding "document:error")) :
    (settledDocument d status error now).Sealed opens :=
  ⟨hd.name, herror⟩

/-- The settling of a document that is there. -/
theorem Mirrors.settle {p : Database} (h : Mirrors opens db p) {d : Document}
    (hd : db.document? d.id = some d) (status : DocumentStatus) {error : Option String}
    (now : Time) (herror : ∀ e ∈ error, TextSealed opens e (d.binding "document:error")) :
    Mirrors opens (db.updateDocument (settledDocument d status error now))
      (p.updateDocument (settledDocument (d.reveal opens) status
        (error.map (fun e => revealText opens e (d.binding "document:error"))) now)) := by
  have hsealed := settledDocument_sealed (h.1.document hd) status now herror
  rw [← settledDocument_reveal]
  exact h.updateDocument (d := settledDocument d status error now) hd rfl hsealed

/-- The failure of a document that is there, with an error that stands for a text. -/
theorem Mirrors.settleFailed {p : Database} (h : Mirrors opens db p) {d : Document}
    (hd : db.document? d.id = some d) {stored error : String} (now : Time)
    (hstored : TextStands opens stored (d.binding "document:error") error) :
    Mirrors opens (db.updateDocument (settledDocument d .failed (some stored) now))
      (p.updateDocument (settledDocument (d.reveal opens) .failed (some error) now)) := by
  have hsealed : ∀ e ∈ some stored, TextSealed opens e (d.binding "document:error") := by
    intro e he
    rw [← Option.mem_some_iff.mp he]
    exact hstored.reveal
  have hsettled := h.settle hd .failed now hsealed
  rwa [Option.map_some, revealText_of_stands hstored] at hsettled

/-- The rows of a publication in the clear: the identifiers, the numbers and the vectors are the
same, and every text is sealed under the binding of its own row. -/
theorem chunkRows_follows (huses : cipher.Uses opens) {owner : String} {documentId : Uuid}
    {chunks : List IngestChunk} (hdict : ∀ c ∈ chunks, c.metadata.IsDict) (uuid4 : Nat → Uuid)
    (embeddings : List Embedding) :
    Follows cipher.WriteFails
      (fun rows rows' => rows' = rows.map (fun c => c.reveal opens owner) ∧
        ∀ c ∈ rows, c.Sealed opens owner ∧ c.documentId = documentId)
      (chunkRows cipher.privateData uuid4 owner documentId chunks embeddings)
      (chunkRows .plain uuid4 owner documentId chunks embeddings) := by
  have hrow : ∀ z ∈ (chunks.zip embeddings).zipIdx, Follows cipher.WriteFails
      (fun c c' => (c.Sealed opens owner ∧ c.documentId = documentId) ∧ c' = c.reveal opens owner)
      (chunkRow cipher.privateData owner documentId (uuid4 z.2) z.1.1 z.1.2)
      (chunkRow .plain owner documentId (uuid4 z.2) z.1.1 z.1.2) := by
    intro z hz
    have hchunk : z.1.1.metadata.IsDict :=
      hdict _ (List.of_mem_zip (List.fst_mem_of_mem_zipIdx hz)).1
    refine .bind (encryptText_follows huses z.1.1.text) ?_
    rintro text _ ⟨rfl, htext⟩
    refine .bind (encryptJson_follows huses z.1.1.metadata) ?_
    rintro metadata _ ⟨rfl, hmetadata⟩
    have hreveal := revealJson_of_stands hmetadata
    refine .pure ⟨⟨⟨htext.reveal, hmetadata.reveal, ?_⟩, rfl⟩, ?_⟩
    · change (revealJson opens metadata _).IsDict
      rw [hreveal]
      exact hchunk
    · simp [DocumentChunk.reveal, revealText_of_stands htext, hreveal]
  refine .bind (.mapM (List.forall₂_same.mpr hrow) (fun _ _ hz => hz)) ?_
  intro rows rows' hlist
  obtain ⟨hall, hmap⟩ := eq_map_of_forall₂ hlist
  split
  · exact .pure ⟨hmap, hall⟩
  · exact .error _

/-- The replaced chunk rows of a document. -/
theorem replaceRows_follows {F : Exc → Prop} (h : db.Sealed opens) {d : Document}
    (hd : db.document? d.id = some d) {rows : List DocumentChunk}
    (hrows : ∀ c ∈ rows, c.Sealed opens d.userId.str ∧ c.documentId = d.id) :
    Follows F (Mirrors opens) ((db.deleteChunks d.id).insertChunks rows)
      (((db.plaintext opens).deleteChunks d.id).insertChunks
        (rows.map (fun c => c.reveal opens d.userId.str))) := by
  have howner : ∀ c ∈ rows, (db.deleteChunks d.id).documentOwner c.documentId = d.userId.str := by
    intro c hc
    rw [(hrows c hc).2]
    exact Database.documentOwner_of hd
  have hreveal : Database.revealChunks opens (db.deleteChunks d.id) rows =
      rows.map (fun c => c.reveal opens d.userId.str) := by
    apply List.map_congr_left
    intro c hc
    rw [howner c hc]
  rw [← Database.plaintext_deleteChunks, ← hreveal]
  refine insertChunks_follows (h.deleteChunks d.id) ?_
  intro c hc
  rw [howner c hc]
  exact (hrows c hc).1

/-- An accepted insert of chunk rows leaves the documents alone. -/
theorem document?_of_replaced {id : Uuid} {rows : List DocumentChunk} {db' : Database}
    (h : (db.deleteChunks id).insertChunks rows = .ok db') (other : Uuid) :
    db'.document? other = db.document? other := by
  obtain ⟨t, ht, hfk, rfl⟩ := Database.insertChunks_ok h
  rfl

theorem replaceChunksAndMarkReady_imitates (huses : cipher.Uses opens) (h : db.Sealed opens)
    (uuid4 : Nat → Uuid) (now : Time) (documentId : Uuid) {chunks : List IngestChunk}
    (hdict : ∀ c ∈ chunks, c.metadata.IsDict) (embeddings : List Embedding) :
    Imitates opens cipher db
      (replaceChunksAndMarkReady cipher.privateData uuid4 now db documentId chunks embeddings)
      (replaceChunksAndMarkReady .plain uuid4 now (db.plaintext opens) documentId chunks
        embeddings) := by
  refine .ofTransaction h ?_
  refine .bind (requireDocument_follows documentId) ?_
  rintro d _ ⟨rfl, hd⟩
  obtain rfl : d.id = documentId := Database.document?_id hd
  refine .bind (follows_of_write (chunkRows_follows huses hdict uuid4 embeddings)) ?_
  rintro rows _ ⟨rfl, hrows⟩
  refine .bind (replaceRows_follows h hd hrows).and_ok ?_
  rintro db' p' ⟨hmirrors, hdb'⟩
  have hd' : db'.document? d.id = some d := (document?_of_replaced hdb' d.id).trans hd
  exact .pure ⟨rfl, hmirrors.settle hd' .ready now (fun e he => by cases he)⟩

theorem markFailed_imitates (huses : cipher.Uses opens) (h : db.Sealed opens) (now : Time)
    (documentId : Uuid) (error : String) :
    Imitates opens cipher db (Ingest.markFailed cipher.privateData now db documentId error)
      (Ingest.markFailed .plain now (db.plaintext opens) documentId error) := by
  refine .ofTransaction h ?_
  refine .bind (requireDocument_follows documentId) ?_
  rintro d _ ⟨rfl, hd⟩
  obtain rfl : d.id = documentId := Database.document?_id hd
  refine .bind (follows_of_write (encryptText_follows huses _)) ?_
  rintro stored _ ⟨rfl, hstored⟩
  have hmirrors : Mirrors opens db (db.plaintext opens) := ⟨h, rfl⟩
  exact .pure ⟨rfl, hmirrors.settleFailed hd now hstored⟩

/-- The machine code is not a ciphertext. -/
theorem storageUnavailable_stands (binding : StorageBinding) :
    TextStands opens storageUnavailable binding storageUnavailable := by
  have hplain : hasCipherPrefix storageUnavailable = false := by decide +kernel
  rw [TextStands, hplain]
  rfl

theorem markStorageUnavailable_imitates (h : db.Sealed opens) (now : Time) (documentId : Uuid) :
    Imitates opens cipher db (Ingest.markStorageUnavailable now db documentId)
      (Ingest.markStorageUnavailable now (db.plaintext opens) documentId) := by
  refine .ofTransaction h ?_
  refine .bind (requireDocument_follows documentId) ?_
  rintro d _ ⟨rfl, hd⟩
  obtain rfl : d.id = documentId := Database.document?_id hd
  have hmirrors : Mirrors opens db (db.plaintext opens) := ⟨h, rfl⟩
  have hsettled := hmirrors.settleFailed hd now (storageUnavailable_stands _)
  refine .pure ⟨rfl, ?_⟩
  exact hsettled

/-- Pairing rows with embeddings does not look at the private columns. -/
theorem reembedded_reveal (chunks : List DocumentChunk) (embeddings : List Embedding)
    (owner chunkOwner : String) (c : DocumentChunk) :
    reembedded ((chunks.map (fun c => c.reveal opens owner)).zip embeddings)
        (c.reveal opens chunkOwner) =
      (reembedded (chunks.zip embeddings) c).reveal opens chunkOwner := by
  have hfind : ((chunks.map (fun c => c.reveal opens owner)).zip embeddings).find?
      (fun p => p.1.id = (c.reveal opens chunkOwner).id) =
      ((chunks.zip embeddings).find? (fun p => p.1.id = c.id)).map
        (fun p => (p.1.reveal opens owner, p.2)) := by
    rw [List.zip_map_left, List.find?_map]
    rfl
  unfold reembedded
  rw [hfind]
  cases (chunks.zip embeddings).find? (fun p => p.1.id = c.id) with
  | none => rfl
  | some p => rfl

theorem reembedded_sealed {paired : List (DocumentChunk × Embedding)} {owner : String}
    {c : DocumentChunk} (hc : c.Sealed opens owner) : (reembedded paired c).Sealed opens owner := by
  unfold reembedded
  split
  · exact ⟨hc.text, hc.metadata, hc.dict⟩
  · exact hc

/-- New embeddings imitate themselves on the plaintext: vectors are in the clear, and the chunks are
paired in the same order. -/
theorem replaceEmbeddingsAndMarkReady_imitates (h : db.Sealed opens) (now : Time)
    (documentId userId : Uuid) (embeddings : List Embedding) :
    Imitates opens cipher db (replaceEmbeddingsAndMarkReady now db documentId userId embeddings)
      (replaceEmbeddingsAndMarkReady now (db.plaintext opens) documentId userId embeddings) := by
  refine .ofTransaction h ?_
  refine .bind (.refl (fun _ => rfl) _) ?_
  rintro _ _ -
  rw [reindexable_plaintext]
  cases hs : reindexable db documentId userId with
  | none => exact .pure ⟨rfl, h, rfl⟩
  | some d =>
      obtain ⟨hd, rfl, -⟩ := reindexable_eq_some hs
      obtain rfl : d.id = documentId := Database.document?_id hd
      dsimp only [Option.map_some]
      have hordered : orderedChunks (db.plaintext opens) d.id =
          (orderedChunks db d.id).map (fun c => c.reveal opens d.userId.str) :=
        map_chunksOf hd (fun a b => a ≤ b)
      have hlength : (orderedChunks (db.plaintext opens) d.id).length =
          (orderedChunks db d.id).length := by
        rw [hordered, List.length_map]
      rw [hlength]
      split
      · exact .error _
      · have hcommutes : ∀ c owner,
            reembedded ((orderedChunks (db.plaintext opens) d.id).zip embeddings)
                (c.reveal opens owner) =
              (reembedded ((orderedChunks db d.id).zip embeddings) c).reveal opens owner := by
          intro c owner
          rw [hordered]
          exact reembedded_reveal _ _ _ _ _
        have hmirrors : Mirrors opens
            (db.rewriteChunks (reembedded ((orderedChunks db d.id).zip embeddings))
              (reembedded_id _) (reembedded_documentId _))
            ((db.plaintext opens).rewriteChunks
              (reembedded ((orderedChunks (db.plaintext opens) d.id).zip embeddings))
              (reembedded_id _) (reembedded_documentId _)) :=
          ⟨h.rewriteChunks _ _ (fun c owner hc => reembedded_sealed hc),
            (Database.plaintext_rewriteChunks _ _ _ _ hcommutes).symm⟩
        exact .pure ⟨rfl, hmirrors.settle hd .ready now (fun e he => by cases he)⟩

theorem markReindexFailed_imitates (huses : cipher.Uses opens) (h : db.Sealed opens) (now : Time)
    (documentId userId : Uuid) (error : String) :
    Imitates opens cipher db
      (Ingest.markReindexFailed cipher.privateData now db documentId userId error)
      (Ingest.markReindexFailed .plain now (db.plaintext opens) documentId userId error) := by
  refine .ofTransaction h ?_
  refine .bind (.refl (fun _ => rfl) _) ?_
  rintro _ _ -
  rw [reindexable_plaintext]
  cases hs : reindexable db documentId userId with
  | none => exact .pure ⟨rfl, h, rfl⟩
  | some d =>
      obtain ⟨hd, rfl, -⟩ := reindexable_eq_some hs
      obtain rfl : d.id = documentId := Database.document?_id hd
      refine .bind (follows_of_write (encryptText_follows huses _)) ?_
      rintro stored _ ⟨rfl, hstored⟩
      have hmirrors : Mirrors opens db (db.plaintext opens) := ⟨h, rfl⟩
      exact .pure ⟨rfl, hmirrors.settleFailed hd now hstored⟩

end PortRag.Service
