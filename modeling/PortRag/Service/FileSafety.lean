import PortRag.Service.FileDocuments

set_option autoImplicit false

/-!
# Published whole or not at all

In every state a file document has no chunks, and is not ready, or it has the chunks of one
publication, none left out and none blank, each with a vector that the embedder returned for its
own text.  A reindex pairs vectors with rows that it reads again; it keeps this because nobody
changes the texts in between.
-/

namespace PortRag.Service

open PortRag.Foundation PortRag.Db PortRag.Security PortRag.Http PortRag.Ingest PortRag.Webpages
  PortRag.Knowledge

/-! ## What a file document has -/

/-- The texts of the chunks as they are stored, with their places. -/
def FileView.texts (v : FileView) : List (Int × String) := v.chunks.map fun c => (c.seq, c.text)

/-- The chunks stand for these texts. -/
def FileView.Reads (opens : Opens) (v : FileView) (texts : List String) : Prop :=
  List.Forall₂ (fun (c : Int × String) text => TextStands opens c.2
    ⟨v.document.userId.str, v.document.id.str, chunkTextField c.1⟩ text) v.texts texts

/-- The vectors are those that the embedder returned for the texts, one for each. -/
def Vectors (returned : List (String × Embedding)) (texts : List String)
    (embeddings : List Embedding) : Prop :=
  List.Forall₂ (fun text e => (text, e) ∈ returned) texts embeddings

/-- The chunk has a text that is not blank, and a vector that the embedder returned for it. -/
def Embedded (opens : Opens) (returned : List (String × Embedding)) (d : Document)
    (c : DocumentChunk) : Prop :=
  ∃ text, TextStands opens c.text ⟨d.userId.str, d.id.str, chunkTextField c.seq⟩ text ∧
    strip text ≠ "" ∧ (text, c.embedding) ∈ returned

/-- The document has all its chunks. -/
structure FileView.Published (opens : Opens) (returned : List (String × Embedding))
    (v : FileView) : Prop where
  nonempty : v.chunks ≠ []
  seqs : v.chunks.map (·.seq) = (List.range v.chunks.length).map Int.ofNat
  embedded : ∀ c ∈ v.chunks, Embedded opens returned v.document c
  status : v.document.status ≠ .processing

/-- The document has no chunks. -/
structure FileView.Unpublished (v : FileView) : Prop where
  chunks : v.chunks = []
  status : v.document.status ≠ .ready

/-- The same document with the same texts. -/
structure FileView.Same (v v' : FileView) : Prop where
  id : v'.document.id = v.document.id
  userId : v'.document.userId = v.document.userId
  texts : v'.texts = v.texts

section Views

variable {opens : Opens} {returned returned' : List (String × Embedding)} {v v' : FileView}
  {texts : List String} {embeddings : List Embedding}

theorem FileView.Same.refl (v : FileView) : v.Same v := ⟨rfl, rfl, rfl⟩

theorem FileView.Same.chunks_eq_nil (h : v.Same v') : v'.chunks = [] ↔ v.chunks = [] := by
  have hlength : v'.chunks.length = v.chunks.length := by
    simpa [FileView.texts] using congrArg List.length h.texts
  rw [← List.length_eq_zero_iff, hlength, List.length_eq_zero_iff]

theorem FileView.Reads.same (h : v.Reads opens texts) (hsame : v.Same v') :
    v'.Reads opens texts := by
  unfold Reads
  rw [hsame.texts, hsame.userId, hsame.id]
  exact h

theorem Vectors.mono (h : Vectors returned texts embeddings)
    (hsub : ∀ x ∈ returned, x ∈ returned') : Vectors returned' texts embeddings :=
  h.imp fun _ _ hx => hsub _ hx

/-- One vector for each text. -/
theorem Vectors.of_zip (h : texts.length = embeddings.length) :
    Vectors (texts.zip embeddings ++ returned) texts embeddings := by
  refine List.forall₂_iff_get.mpr ⟨h, fun i hi hi' => List.mem_append_left _ ?_⟩
  exact List.mem_iff_getElem.mpr ⟨i, by rw [List.length_zip]; omega, by rw [List.getElem_zip]; rfl⟩

theorem FileView.Published.mono (h : v.Published opens returned)
    (hsub : ∀ x ∈ returned, x ∈ returned') : v.Published opens returned' where
  nonempty := h.nonempty
  seqs := h.seqs
  embedded := by
    intro c hc
    obtain ⟨text, hstands, hblank, hmem⟩ := h.embedded c hc
    exact ⟨text, hstands, hblank, hsub _ hmem⟩
  status := h.status

theorem FileView.same_settled (v : FileView) (status : DocumentStatus) (error : Option String)
    (now : Time) : v.Same (v.settled status error now) := ⟨rfl, rfl, rfl⟩

theorem FileView.Published.settled (h : v.Published opens returned) {status : DocumentStatus}
    (hstatus : status ≠ .processing) (error : Option String) (now : Time) :
    (v.settled status error now).Published opens returned :=
  ⟨h.nonempty, h.seqs, h.embedded, hstatus⟩

theorem FileView.Unpublished.settled (h : v.Unpublished) {status : DocumentStatus}
    (hstatus : status ≠ .ready) (error : Option String) (now : Time) :
    (v.settled status error now).Unpublished :=
  ⟨h.chunks, hstatus⟩

/-- The rows of a publication: as many as there are chunks, each with the vector that the embedder
returned for its text, and numbered as the chunker cut them. -/
theorem published_rows {d : Document} {chunks : List IngestChunk} {rows : List DocumentChunk}
    (hrows : RowsStand opens d.userId.str d.id chunks embeddings rows) (hnonempty : chunks ≠ [])
    (hcut : WellCut chunks) (hvectors : Vectors returned (chunks.map IngestChunk.text) embeddings)
    (now : Time) : FileView.Published opens returned
      ⟨settledDocument d .ready none now, rows.mergeSort (fun a b => a.seq ≤ b.seq)⟩ := by
  have hlength := hrows.length_eq
  have hseqs : rows.map (·.seq) = (List.range rows.length).map Int.ofNat := by
    rw [hlength, ← hcut.seqs]
    refine (eq_of_forall₂_eq ?_).symm
    rw [List.forall₂_map_left_iff, List.forall₂_map_right_iff]
    have hfirst : (chunks.zip embeddings).map Prod.fst = chunks := List.map_fst_zip hrows.1.le
    nth_rewrite 1 [← hfirst]
    rw [List.forall₂_map_left_iff]
    exact hrows.2.imp fun _ _ hrow => hrow.seq.symm
  have hsorted : rows.mergeSort (fun a b => a.seq ≤ b.seq) = rows := by
    refine List.mergeSort_of_pairwise ?_
    have hpairwise : (rows.map (·.seq)).Pairwise (fun a b => decide (a ≤ b) = true) := by
      rw [hseqs, List.pairwise_map]
      exact List.pairwise_lt_range.imp fun hlt => by simpa using hlt.le
    exact List.pairwise_map.mp hpairwise
  rw [hsorted]
  refine ⟨?_, hseqs, ?_, by simp [settledDocument]⟩
  · intro hnil
    have hnil' : rows = [] := hnil
    rw [hnil', List.length_nil] at hlength
    exact hnonempty (List.length_eq_zero_iff.mp hlength.symm)
  · intro c hc
    obtain ⟨i, hi, rfl⟩ := List.mem_iff_getElem.mp hc
    have hi' : i < chunks.length := hlength ▸ hi
    have hie : i < embeddings.length := hrows.1 ▸ hi'
    have hrow := hrows.2.get (by rw [List.length_zip]; omega) hi
    simp only [List.get_eq_getElem, List.getElem_zip] at hrow
    refine ⟨chunks[i].text, ?_, hcut.texts _ (List.getElem_mem hi'), ?_⟩
    · rw [hrow.seq]
      exact hrow.text
    · have hvector := hvectors.get (by rw [List.length_map]; exact hi') hie
      simp only [List.get_eq_getElem, List.getElem_map] at hvector
      rw [hrow.embedding]
      exact hvector

theorem FileView.same_reembed (h : v.chunks.length = embeddings.length) :
    v.Same (v.reembed embeddings) :=
  ⟨rfl, rfl, FileView.map_reembed (fun _ _ => rfl) h⟩

/-- New vectors for the texts that a published document has leave it published: rows and vectors are
paired in the order of `seq`, in which the texts were read. -/
theorem FileView.Published.reembed (h : v.Published opens returned) (hreads : v.Reads opens texts)
    (hvectors : Vectors returned texts embeddings) (hlength : v.chunks.length = embeddings.length) :
    (v.reembed embeddings).Published opens returned := by
  have hsame := FileView.same_reembed hlength
  have hseq : ∀ w : FileView, w.chunks.map (·.seq) = w.texts.map Prod.fst := by
    intro w
    rw [FileView.texts, List.map_map]
    rfl
  have hcount : (v.reembed embeddings).chunks.length = v.chunks.length := by
    unfold FileView.reembed
    rw [List.length_zipWith, hlength, Nat.min_self]
  refine ⟨?_, ?_, ?_, h.status⟩
  · rw [Ne, hsame.chunks_eq_nil]
    exact h.nonempty
  · rw [hseq, hsame.texts, ← hseq, h.seqs, hcount]
  · intro c hc
    obtain ⟨i, hi, rfl⟩ := List.mem_iff_getElem.mp hc
    have hiv : i < v.chunks.length := hcount ▸ hi
    have hie : i < embeddings.length := hlength ▸ hiv
    have hcell : (v.reembed embeddings).chunks[i] =
        { v.chunks[i] with embedding := embeddings[i] } := List.getElem_zipWith
    obtain ⟨plain, hplain, hblank, -⟩ := h.embedded _ (List.getElem_mem hiv)
    have hit : i < texts.length := by
      rw [hvectors.length_eq]
      exact hie
    have hstands := hreads.get (by rw [FileView.texts, List.length_map]; exact hiv) hit
    have hvector := hvectors.get hit hie
    simp only [List.get_eq_getElem, FileView.texts, List.getElem_map] at hstands hvector
    obtain rfl := hplain.unique hstands
    rw [hcell]
    exact ⟨texts[i], hstands, hblank, hvector⟩

end Views

/-! ## The invariant -/

namespace FileService

/-- What is known at a point of a job: what it is about to publish is whole. -/
def JobHolds (returned : List (String × Embedding)) : IngestPoint → Prop
  | .prepared chunks embeddings => chunks ≠ [] ∧ WellCut chunks ∧
      Vectors returned (chunks.map IngestChunk.text) embeddings
  | _ => True

/-- What is known at a point of a request for the document `id`: what it has read, or has vectors
for, is what the document has, if it is still there. -/
def ReindexHolds (opens : Opens) (s : FileService) (id : Uuid) : ReindexPoint → Prop
  | .read chunks => id ∈ s.used ∧ ∀ v, fileOf s.db id = some v →
      v.chunks ≠ [] ∧ v.Reads opens (chunks.map IngestChunk.text)
  | .embedded embeddings => id ∈ s.used ∧ ∀ v, fileOf s.db id = some v →
      v.chunks ≠ [] ∧ ∃ texts, v.Reads opens texts ∧ Vectors s.returned texts embeddings
  | _ => True

/-- What holds of the system in every state. -/
structure Sound (opens : Opens) (s : FileService) : Prop where
  known : ∀ id d, s.db.document? id = some d → id ∈ s.used
  owned : ∀ t ∈ s.jobs.rows, t.id ∈ s.used
  files : ∀ id v, fileOf s.db id = some v → v.Unpublished ∨ v.Published opens s.returned
  /-- A document whose job is not through has no chunks. -/
  awaited : ∀ t ∈ s.jobs.rows, ∀ v, fileOf s.db t.id = some v → v.chunks = []
  jobs : ∀ t ∈ s.jobs.rows, JobHolds s.returned t.point
  reindexes : ∀ t ∈ s.reindexes.rows, ReindexHolds opens s t.documentId t.point

section Steps

variable {opens : Opens} {s s' : FileService} {id : Uuid}

theorem Initial.sound (h : s.Initial) : s.Sound opens := by
  obtain ⟨hdocuments, hjobs, hreindexes⟩ := h
  have hnone : ∀ id, s.db.document? id = none := by
    intro id
    rw [Database.document?, hdocuments]
    exact Table.find?_empty id
  have hjob : ∀ t, t ∉ s.jobs.rows := by
    rw [hjobs]
    exact fun t => List.not_mem_nil
  have hreindex : ∀ t, t ∉ s.reindexes.rows := by
    rw [hreindexes]
    exact fun t => List.not_mem_nil
  refine ⟨?_, fun t ht => absurd ht (hjob t), ?_, fun t ht => absurd ht (hjob t),
    fun t ht => absurd ht (hjob t), fun t ht => absurd ht (hreindex t)⟩
  · intro id d hd
    rw [hnone] at hd
    cases hd
  · intro id v hv
    have hd := (fileOf_eq_some_iff.mp hv).1
    rw [hnone] at hd
    cases hd

/-- Where a file document of a new database comes from: it has its old texts; or it is new; or it
has been published for the first time, its job being through. -/
def Follows (s : FileService) (id : Uuid) (v' : FileView) : Prop :=
  (∃ v, fileOf s.db id = some v ∧ v.Same v') ∨ id ∉ s.used ∨
    ∃ v, fileOf s.db id = some v ∧ v.chunks = [] ∧ ∀ t ∈ s.jobs.rows, t.id ≠ id

/-- A change of the database, of the vectors and of the identifiers.  The invariant is about the
files and about what the tasks wait for, so it is enough to say what becomes of each file and that
nothing is forgotten. -/
theorem Sound.change (h : s.Sound opens) {db' : Database} {returned' : List (String × Embedding)}
    {used' : List Uuid} (hreturned : ∀ x ∈ s.returned, x ∈ returned')
    (hused : ∀ id ∈ s.used, id ∈ used') (hknown : ∀ id d, db'.document? id = some d → id ∈ used')
    (hfiles : ∀ id v', fileOf db' id = some v' →
      (v'.Unpublished ∨ v'.Published opens returned') ∧ s.Follows id v') :
    Sound opens { s with db := db', returned := returned', used := used' } where
  known := hknown
  owned := fun t ht => hused _ (h.owned t ht)
  files := fun id v' hv' => (hfiles id v' hv').1
  awaited := by
    intro t ht v' hv'
    rcases (hfiles _ v' hv').2 with ⟨v, hv, hsame⟩ | hnew | ⟨v, -, -, hnone⟩
    · exact hsame.chunks_eq_nil.mpr (h.awaited t ht v hv)
    · exact absurd (h.owned t ht) hnew
    · exact absurd rfl (hnone t ht)
  jobs := by
    intro t ht
    have hjob := h.jobs t ht
    generalize t.point = p at hjob
    cases p with
    | prepared chunks embeddings => exact ⟨hjob.1, hjob.2.1, hjob.2.2.mono hreturned⟩
    | created => trivial
    | queued => trivial
    | unavailable => trivial
    | failing e => trivial
  reindexes := by
    intro t ht
    -- a document that was read has chunks, so it is neither new nor published just now
    have hold : ∀ {P : FileView → Prop}, (∀ v, fileOf s.db t.documentId = some v →
        v.chunks ≠ [] ∧ P v) → t.documentId ∈ s.used → ∀ v', fileOf db' t.documentId = some v' →
        ∃ v, v.Same v' ∧ v.chunks ≠ [] ∧ P v := by
      intro P hread htaken v' hv'
      rcases (hfiles _ v' hv').2 with ⟨v, hv, hsame⟩ | hnew | ⟨v, hv, hnil, -⟩
      · exact ⟨v, hsame, hread v hv⟩
      · exact absurd htaken hnew
      · exact absurd hnil (hread v hv).1
    have hreindex := h.reindexes t ht
    generalize t.point = p at hreindex
    cases p with
    | requested => trivial
    | failing e => trivial
    | read chunks =>
        refine ⟨hused _ hreindex.1, fun v' hv' => ?_⟩
        obtain ⟨v, hsame, hne, hreads⟩ := hold hreindex.2 hreindex.1 v' hv'
        exact ⟨fun hnil => hne (hsame.chunks_eq_nil.mp hnil), hreads.same hsame⟩
    | embedded embeddings =>
        refine ⟨hused _ hreindex.1, fun v' hv' => ?_⟩
        obtain ⟨v, hsame, hne, texts, hreads, hvectors⟩ := hold hreindex.2 hreindex.1 v' hv'
        exact ⟨fun hnil => hne (hsame.chunks_eq_nil.mp hnil), texts, hreads.same hsame,
          hvectors.mono hreturned⟩

/-- Nothing but the vectors grows. -/
theorem Sound.grow (h : s.Sound opens) (more : List (String × Embedding)) :
    Sound opens { s with returned := more ++ s.returned } := by
  have hreturned : ∀ x ∈ s.returned, x ∈ more ++ s.returned :=
    fun x hx => List.mem_append_right _ hx
  refine h.change hreturned (fun _ hid => hid) h.known fun id v hv => ⟨?_, .inl ⟨v, hv, .refl v⟩⟩
  exact (h.files id v hv).imp_right fun hpublished => hpublished.mono hreturned

/-- A change that leaves each file document as it is, or deletes it. -/
theorem Sound.keep (h : s.Sound opens) {db' : Database} {used' : List Uuid}
    (hused : ∀ id ∈ s.used, id ∈ used') (hknown : ∀ id d, db'.document? id = some d → id ∈ used')
    (hkeep : KeepsFiles s.db db') : Sound opens { s with db := db', used := used' } := by
  refine h.change (fun _ hx => hx) hused hknown fun id v hv => ?_
  have hv' := hkeep id v hv
  exact ⟨h.files id v hv', .inl ⟨v, hv', .refl v⟩⟩

/-- A job moves on, or is through. -/
theorem Sound.jobTo (h : s.Sound opens) {t : IngestTask} (ht : t ∈ s.jobs.rows)
    {next : Option IngestPoint} (hnext : ∀ p, next = some p → JobHolds s.returned p) :
    (s.jobTo t next).Sound opens := by
  cases next with
  | none =>
      have hsub : ∀ u ∈ (s.jobTo t none).jobs.rows, u ∈ s.jobs.rows :=
        fun u hu => List.mem_of_mem_filter hu
      exact ⟨h.known, fun u hu => h.owned u (hsub u hu), h.files,
        fun u hu => h.awaited u (hsub u hu), fun u hu => h.jobs u (hsub u hu), h.reindexes⟩
  | some p =>
      refine ⟨h.known, ?_, h.files, ?_, ?_, h.reindexes⟩
      · intro u hu
        rcases Table.mem_set hu with rfl | hu
        · exact h.owned t ht
        · exact h.owned u hu
      · intro u hu
        rcases Table.mem_set hu with rfl | hu
        · exact h.awaited t ht
        · exact h.awaited u hu
      · intro u hu
        rcases Table.mem_set hu with rfl | hu
        · exact hnext p rfl
        · exact h.jobs u hu

/-- A request moves on, or is answered. -/
theorem Sound.reindexTo (h : s.Sound opens) {t : ReindexTask} {next : Option ReindexPoint}
    (hnext : ∀ p, next = some p → ReindexHolds opens s t.documentId p) :
    (s.reindexTo t next).Sound opens := by
  cases next with
  | none =>
      exact ⟨h.known, h.owned, h.files, h.awaited, h.jobs,
        fun u hu => h.reindexes u (List.mem_of_mem_filter hu)⟩
  | some p =>
      refine ⟨h.known, h.owned, h.files, h.awaited, h.jobs, fun u hu => ?_⟩
      rcases Table.mem_set hu with rfl | hu
      · exact hnext p rfl
      · exact h.reindexes u hu

/-- The documents after a call are those of before, and the one that it registers. -/
theorem Sound.known_exec (h : s.Sound opens) (c : ServiceCall) (pd : PrivateData) {d : Document}
    (hd : (c.exec pd s.db).db.document? id = some d) : id ∈ c.fresh.toList ++ s.used := by
  rcases c.frame pd s.db with hsame | ⟨owner, -, -, hframe⟩
  · rw [hsame] at hd
    exact List.mem_append_right _ (h.known id d hd)
  · rcases hframe.documents id d hd with ⟨old, hold, -⟩ | ⟨hfresh, -⟩
    · exact List.mem_append_right _ (h.known id old hold)
    · rw [hfresh]
      exact List.mem_append_left _ List.mem_cons_self

/-- The failure of a document is recorded, or nothing is. -/
theorem Sound.marked (h : s.Sound opens) {db' : Database}
    (hknown : ∀ id d, db'.document? id = some d → id ∈ s.used)
    (hmark : db' = s.db ∨ MarksFailed s.db id db') : Sound opens { s with db := db' } := by
  rcases hmark with rfl | ⟨error, now, hmark⟩
  · exact h
  refine h.change (fun _ hx => hx) (fun _ hid => hid) hknown fun other v' hv' => ?_
  rw [hmark] at hv'
  split at hv'
  · next hother =>
      subst hother
      obtain ⟨v, hv, rfl⟩ := Option.map_eq_some_iff.mp hv'
      refine ⟨?_, .inl ⟨v, hv, v.same_settled _ _ _⟩⟩
      exact (h.files _ v hv).imp (fun hun => hun.settled (by simp) error now)
        (fun hpub => hpub.settled (by simp) error now)
  · exact ⟨h.files other v' hv', .inl ⟨v', hv', .refl v'⟩⟩

/-- A publication, when the job is through that has prepared it. -/
theorem Sound.published (h : s.Sound opens) {cipher : PrivateDataCipher} (huses : cipher.Uses opens)
    {uuid4 : Nat → Uuid} {now : Time} {chunks : List IngestChunk} {embeddings : List Embedding}
    (hholds : JobHolds s.returned (.prepared chunks embeddings))
    (hblank : ∀ v, fileOf s.db id = some v → v.chunks = []) (hnone : ∀ t ∈ s.jobs.rows, t.id ≠ id)
    {o : Outcome Unit}
    (ho : replaceChunksAndMarkReady cipher.privateData uuid4 now s.db id chunks embeddings = o) :
    Sound opens { s with db := o.db } := by
  rcases replaceChunks_files huses ho with hsame | ⟨-, hothers, hfile⟩
  · rw [hsame]
    exact h
  refine h.change (fun _ hx => hx) (fun _ hid => hid) ?_ fun other v' hv' => ?_
  · intro other d hd
    rw [← ho] at hd
    exact h.known_exec (.replaceChunks uuid4 now id chunks embeddings) cipher.privateData hd
  by_cases hother : other = id
  · subst hother
    obtain ⟨v, rows, hv, hrows, rfl⟩ := hfile v' hv'
    obtain ⟨hnonempty, hcut, hvectors⟩ := hholds
    refine ⟨.inr ?_, .inr (.inr ⟨v, hv, hblank v hv, hnone⟩)⟩
    rw [← fileOf_document_id hv] at hrows
    exact published_rows hrows hnonempty hcut hvectors now
  · rw [hothers other hother] at hv'
    exact ⟨h.files other v' hv', .inl ⟨v', hv', .refl v'⟩⟩

/-- The last transaction of a reindex. -/
theorem Sound.reembedded (h : s.Sound opens) {now : Time} {userId : Uuid}
    {embeddings : List Embedding} (hholds : ReindexHolds opens s id (.embedded embeddings))
    {o : Outcome Bool} (ho : replaceEmbeddingsAndMarkReady now s.db id userId embeddings = o) :
    Sound opens { s with db := o.db } := by
  rcases replaceEmbeddings_files ho with hsame | ⟨hlength, hfile⟩
  · rw [hsame]
    exact h
  refine h.change (fun _ hx => hx) (fun _ hid => hid) ?_ fun other v' hv' => ?_
  · intro other d hd
    rw [← ho] at hd
    exact h.known_exec (.replaceEmbeddings now id userId embeddings) .plain hd
  rw [hfile] at hv'
  split at hv'
  · next hother =>
      subst hother
      obtain ⟨v, hv, rfl⟩ := Option.map_eq_some_iff.mp hv'
      obtain ⟨hne, texts, hreads, hvectors⟩ := hholds.2 v hv
      have hsame := FileView.same_reembed (hlength v hv)
      have hpublished : v.Published opens s.returned := by
        rcases h.files _ v hv with hun | hpub
        · exact absurd hun.chunks hne
        · exact hpub
      refine ⟨.inr ?_, .inl ⟨v, hv, hsame.id, hsame.userId, hsame.texts⟩⟩
      exact (hpublished.reembed hreads hvectors (hlength v hv)).settled (by simp) none now
  · exact ⟨h.files other v' hv', .inl ⟨v', hv', .refl v'⟩⟩

/-! ## Jobs -/

theorem jobHolds_afterError {e : Exc} {p : IngestPoint} (h : IngestPoint.afterError e = some p)
    (returned : List (String × Embedding)) : JobHolds returned p := by
  unfold IngestPoint.afterError at h
  split at h <;> cases h <;> trivial

/-- What a job has prepared is whole. -/
theorem jobHolds_prepared {env : IngestEnv} (hcuts : env.CutsByDocling) {job : IngestJob}
    {p : List IngestChunk × List Embedding} (h : prepare env job = .ok p)
    (returned : List (String × Embedding)) :
    JobHolds ((p.1.map IngestChunk.text).zip p.2 ++ returned) (.prepared p.1 p.2) := by
  obtain ⟨⟨-, parsed, -, -, hparsed⟩, hnonempty, -, hlength⟩ := prepare_ok h
  obtain ⟨name, raw, hcut⟩ := hcuts parsed p.1 hparsed
  refine ⟨hnonempty, hcut ▸ chunkSync_wellCut name raw, Vectors.of_zip ?_⟩
  rw [List.length_map, hlength]

/-- A step of a job keeps the invariant.  The cases are the points of the job: what it has prepared
stands for the chunks of its file until the one transaction that publishes it. -/
theorem Sound.job (h : s.Sound opens) {t : IngestTask} (ht : t ∈ s.jobs.rows)
    {action : IngestAction} (hpossible : s.Possible opens (.job t.id action))
    {next : Option IngestPoint} {db' : Database} (hact : t.Acts s.db action next db') :
    Sound opens { s.jobTo t next with db := db', returned := action.returned ++ s.returned } := by
  have hholds := h.jobs t ht
  -- the mark of a handler, and where it leads
  have hmark : ∀ {next : Option IngestPoint} {outage : Option Exc} {o o' : Outcome Unit},
      attempt s.db outage o = o' → (o.db = s.db ∨ MarksFailed s.db t.id o.db) →
      (∀ id d, o.db.document? id = some d → id ∈ s.used) → (∀ p, next = some p → p = .queued) →
      Sound opens { s.jobTo t next with db := o'.db } := by
    intro next outage o o' ho hfiles hknown hnext
    have hmoved : (s.jobTo t next).Sound opens := by
      refine h.jobTo ht fun p hp => ?_
      rw [hnext p hp]
      trivial
    rcases attempt_cases s.db outage o with hsame | hsame
    · rw [ho] at hsame
      rw [hsame]
      exact hmoved
    · rw [ho] at hsame
      subst hsame
      exact @Sound.marked opens (s.jobTo t next) t.id hmoved _ hknown hfiles
  cases hact with
  | enqueued hpoint =>
      have hmoved : (s.jobTo t (some .queued)).Sound opens := h.jobTo ht (by rintro p ⟨⟩; trivial)
      exact hmoved
  | quitted =>
      have hmoved : (s.jobTo t none).Sound opens := h.jobTo ht (by rintro p ⟨⟩)
      exact hmoved
  | prepared hpoint prepared =>
      obtain ⟨env, hcuts, hprepared⟩ := hpossible t (Table.find?_of_mem ht)
      cases prepared with
      | error e => exact h.jobTo ht fun q hq => jobHolds_afterError hq s.returned
      | ok p =>
          have hmoved : (FileService.jobTo
              { s with returned := (p.1.map IngestChunk.text).zip p.2 ++ s.returned } t
              (some (.prepared p.1 p.2))).Sound opens := by
            refine (h.grow _).jobTo ht ?_
            rintro q ⟨⟩
            exact jobHolds_prepared hcuts hprepared.symm s.returned
          exact hmoved
  | @published chunks embeddings hpoint cipher uuid4 now outage o ho =>
      rw [hpoint] at hholds
      have hmoved : (s.jobTo t (IngestPoint.afterPublication o.result)).Sound opens := by
        refine h.jobTo ht fun p hp => ?_
        unfold IngestPoint.afterPublication at hp
        split at hp
        · cases hp
        · exact jobHolds_afterError hp s.returned
      rcases attempt_cases s.db outage (replaceChunksAndMarkReady cipher.privateData uuid4 now s.db
        t.id chunks embeddings) with hsame | hsame
      · rw [ho] at hsame
        rw [hsame]
        exact hmoved
      rw [ho] at hsame
      rcases replaceChunks_files hpossible hsame.symm with hidle | ⟨hresult, -⟩
      · rw [hidle]
        exact hmoved
      · -- published: the job is through
        rw [hresult] at hmoved ⊢
        refine hmoved.published hpossible hholds (h.awaited t ht) ?_ hsame.symm
        intro u hu
        simpa using (List.mem_filter.mp hu).2
  | unavailable hpoint cipher now outage ho =>
      refine hmark ho (markStorageUnavailable_marksFailed rfl) ?_ ?_
      · intro id d hd
        exact h.known_exec (.markStorageUnavailable now t.id) .plain hd
      · intro p hp
        unfold IngestPoint.afterUnavailable at hp
        split at hp <;> cases hp
        rfl
  | failed hpoint cipher now outage ho =>
      refine hmark ho (markFailed_marksFailed rfl) ?_ ?_
      · intro id d hd
        exact h.known_exec (.markFailed now t.id _) cipher.privateData hd
      · intro p hp
        unfold IngestPoint.afterFailure at hp
        split at hp <;> cases hp
        rfl

/-! ## Requests -/

theorem reindexHolds_afterError {e : Exc} {p : ReindexPoint}
    (h : ReindexPoint.afterError e = some p) (id : Uuid) : ReindexHolds opens s id p := by
  unfold ReindexPoint.afterError at h
  split at h <;> cases h
  trivial

/-- A request that reads a document has its texts, in the order of `seq`, whatever is published or
deleted afterwards. -/
theorem Sound.holds_read (h : s.Sound opens) {cipher : PrivateDataCipher}
    (huses : cipher.Uses opens) {userId : Uuid} {chunks : List IngestChunk}
    (hread : getChunksForReindex cipher.privateData s.db id userId = .ok (some chunks))
    (hne : chunks ≠ []) : ReindexHolds opens s id (.read chunks) := by
  obtain ⟨_, -, hread⟩ := bind_eq_ok.mp hread
  split at hread
  · cases hread
  next d hfound =>
    obtain ⟨built, hbuilt, hread⟩ := bind_eq_ok.mp hread
    cases pure_eq_ok.mp hread
    obtain ⟨hd, howner, -⟩ := reindexable_eq_some hfound
    refine ⟨h.known id d hd, fun v hv => ?_⟩
    obtain ⟨hvd, -, hvc⟩ := fileOf_eq_some_iff.mp hv
    obtain rfl := Option.some.inj (hd.symm.trans hvd)
    have hrows := mapM_eq_ok.mp hbuilt
    rw [hvc] at hrows
    refine ⟨?_, ?_⟩
    · intro hnil
      rw [hnil] at hrows
      cases hrows
      exact hne rfl
    · unfold FileView.Reads FileView.texts
      rw [List.forall₂_map_left_iff, List.forall₂_map_right_iff, howner, fileOf_document_id hv]
      refine hrows.imp fun c chunk hchunk => ?_
      obtain ⟨text, htext, hchunk⟩ := bind_eq_ok.mp hchunk
      obtain ⟨metadata, -, hchunk⟩ := bind_eq_ok.mp hchunk
      cases pure_eq_ok.mp hchunk
      exact readText_stands huses htext

/-- A step of a reindex keeps the invariant.  The texts it has read are still those of its document
when it writes, since a document that is ready is not published again. -/
theorem Sound.reindex (h : s.Sound opens) {t : ReindexTask} (ht : t ∈ s.reindexes.rows)
    {action : ReindexAction} (hpossible : s.Possible opens (.reindex t.id action))
    {next : Option ReindexPoint} {db' : Database} (hact : t.Acts s.db action next db') :
    Sound opens
      { s.reindexTo t next with db := db', returned := t.returned action ++ s.returned } := by
  have hholds := h.reindexes t ht
  cases hact with
  | quitted =>
      have hmoved : (s.reindexTo t none).Sound opens := h.reindexTo (by rintro p ⟨⟩)
      exact hmoved
  | refused hpoint cipher e =>
      have hmoved : (s.reindexTo t (ReindexPoint.afterError e)).Sound opens :=
        h.reindexTo fun p hp => reindexHolds_afterError hp _
      exact hmoved
  | read hpoint cipher =>
      have hmoved : (s.reindexTo t (ReindexPoint.afterRead
          (getChunksForReindex cipher.privateData s.db t.documentId t.userId))).Sound opens := by
        refine h.reindexTo fun p hp => ?_
        unfold ReindexPoint.afterRead at hp
        split at hp
        · cases hp
        · next chunks hread =>
            split at hp
            · cases hp
              trivial
            · next hne =>
                cases hp
                refine h.holds_read hpossible hread ?_
                rintro rfl
                exact hne rfl
        · exact reindexHolds_afterError hp _
      exact hmoved
  | @embedded chunks hpoint answer =>
      rw [hpoint] at hholds
      cases answer with
      | error e =>
          have hmoved : (s.reindexTo t (ReindexPoint.afterError e)).Sound opens :=
            h.reindexTo fun p hp => reindexHolds_afterError hp _
          exact hmoved
      | ok embeddings =>
          have hreturned : t.returned (.embed (.ok embeddings)) =
              (chunks.map IngestChunk.text).zip embeddings := by
            unfold ReindexTask.returned
            rw [hpoint]
          rw [hreturned]
          have hmoved : (FileService.reindexTo
              { s with returned := (chunks.map IngestChunk.text).zip embeddings ++ s.returned } t
              (ReindexPoint.afterEmbedding chunks (.ok embeddings))).Sound opens := by
            refine (h.grow _).reindexTo fun p hp => ?_
            unfold ReindexPoint.afterEmbedding at hp
            dsimp only at hp
            split at hp
            · cases hp
              trivial
            · next hlength =>
                cases hp
                refine ⟨hholds.1, fun v hv => ?_⟩
                obtain ⟨hne, hreads⟩ := hholds.2 v hv
                refine ⟨hne, _, hreads, Vectors.of_zip ?_⟩
                rw [List.length_map, Classical.not_not.mp hlength]
          exact hmoved
  | @stored embeddings hpoint now outage o ho =>
      rw [hpoint] at hholds
      have hmoved : (s.reindexTo t (ReindexPoint.afterStore o.result)).Sound opens := by
        refine h.reindexTo fun p hp => ?_
        unfold ReindexPoint.afterStore at hp
        split at hp
        · cases hp
        · exact reindexHolds_afterError hp _
      rcases attempt_cases s.db outage (replaceEmbeddingsAndMarkReady now s.db t.documentId t.userId
        embeddings) with hsame | hsame
      · rw [ho] at hsame
        rw [hsame]
        exact hmoved
      · rw [ho] at hsame
        exact hmoved.reembedded hholds hsame.symm
  | @failed e hpoint cipher now outage o ho =>
      have hmoved : (s.reindexTo t none).Sound opens := h.reindexTo (by rintro p ⟨⟩)
      rcases attempt_cases s.db outage (markReindexFailed cipher.privateData now s.db t.documentId
        t.userId e.message) with hsame | hsame
      · rw [ho] at hsame
        rw [hsame]
        exact hmoved
      · rw [ho] at hsame
        refine @Sound.marked opens (s.reindexTo t none) t.documentId hmoved _ ?_
          (markReindexFailed_marksFailed hsame.symm)
        intro id d hd
        rw [hsame] at hd
        exact h.known_exec (.markReindexFailed now t.documentId t.userId _) cipher.privateData hd

/-! ## Runs -/

/-- An upload creates its document, and its job if it learns of that.  The identifier is new, so no
task waits for this document yet. -/
theorem Sound.create (h : s.Sound opens) {pd : PrivateData} {job : IngestJob} {now : Time}
    {knowledgeKey name mime : String} (hfresh : job.documentId ∉ s.used)
    {o : Outcome DocumentRecord}
    (ho : createProcessingDocument pd job.documentId now s.db job.userId knowledgeKey name mime =
      o) :
    Sound opens { s with
      db := o.db
      used := job.documentId :: s.used
      jobs := if o.result.toBool then s.jobs.set ⟨job, .created⟩ else s.jobs } := by
  have hchanged : Sound opens { s with db := o.db, used := job.documentId :: s.used } := by
    refine h.change (fun _ hx => hx) (fun _ hid => List.mem_cons_of_mem _ hid) ?_ ?_
    · intro id d hd
      rw [← ho] at hd
      exact h.known_exec (.createDocument job.documentId now job.userId knowledgeKey name mime) pd
        hd
    · intro id v' hv'
      rcases createDocument_files ho with hsame | ⟨document, hstatus, hfile⟩
      · rw [hsame] at hv'
        exact ⟨h.files id v' hv', .inl ⟨v', hv', .refl v'⟩⟩
      · rw [hfile] at hv'
        split at hv'
        · next hid =>
            cases hv'
            refine ⟨.inl ⟨rfl, ?_⟩, .inr (.inl (hid ▸ hfresh))⟩
            rw [hstatus]
            simp
        · exact ⟨h.files id v' hv', .inl ⟨v', hv', .refl v'⟩⟩
  cases hanswer : o.result.toBool with
  | false => exact hchanged
  | true =>
      have hnew : (⟨job, .created⟩ : IngestTask).id = job.documentId := rfl
      refine ⟨hchanged.known, ?_, hchanged.files, ?_, ?_, hchanged.reindexes⟩
      · intro t ht
        rcases Table.mem_set ht with rfl | ht
        · exact List.mem_cons_self
        · exact hchanged.owned t ht
      · intro t ht v hv
        rcases Table.mem_set ht with rfl | ht
        · -- the document of this identifier is the new one, or there is none
          rcases createDocument_files ho with hsame | ⟨document, -, hfile⟩
          · change fileOf o.db job.documentId = some v at hv
            rw [hsame] at hv
            exact absurd (h.known _ _ (fileOf_eq_some_iff.mp hv).1) hfresh
          · change fileOf o.db job.documentId = some v at hv
            rw [hfile, if_pos rfl] at hv
            cases hv
            rfl
        · exact hchanged.awaited t ht v hv
      · intro t ht
        rcases Table.mem_set ht with rfl | ht
        · trivial
        · exact hchanged.jobs t ht

/-- Every step keeps the invariant, in whatever order jobs, reindexes, uploads, deletions, erasures
and all the other calls take theirs. -/
theorem Sound.step (h : s.Sound opens) {e : FileEvent} {u : Unit} (hstep : StepTo opens s e u s') :
    s'.Sound opens := by
  obtain ⟨hpossible, hstep⟩ := hstep
  cases e with
  | create cipher job now knowledgeKey name mime =>
      obtain ⟨hfresh, hstep⟩ := Option.ite_none_left_eq_some.mp hstep
      cases hstep
      exact h.create hfresh rfl
  | job id action =>
      obtain ⟨t, ht, hstep⟩ := Option.bind_eq_some_iff.mp hstep
      obtain ⟨⟨next, db'⟩, hact, rfl⟩ := Option.map_eq_some_iff.mp hstep
      obtain rfl := Table.find?_key ht
      exact h.job (Table.find?_mem ht) hpossible (IngestTask.acts hact)
  | request id documentId userId =>
      obtain ⟨-, hstep⟩ := Option.ite_none_right_eq_some.mp hstep
      cases hstep
      have hmoved : (s.reindexTo ⟨id, documentId, userId, .requested⟩
          (some .requested)).Sound opens := h.reindexTo (by rintro p ⟨⟩; trivial)
      exact hmoved
  | reindex id action =>
      obtain ⟨t, ht, hstep⟩ := Option.bind_eq_some_iff.mp hstep
      obtain ⟨⟨next, db'⟩, hact, rfl⟩ := Option.map_eq_some_iff.mp hstep
      obtain rfl := Table.find?_key ht
      exact h.reindex (Table.find?_mem ht) hpossible (ReindexTask.acts hact)
  | serve cipher call =>
      obtain ⟨hbeside, hstep⟩ := Option.ite_none_left_eq_some.mp hstep
      rw [not_or, Bool.not_eq_true] at hbeside
      cases hstep
      refine h.keep (fun _ hid => List.mem_append_right _ hid) ?_ ?_
      · exact fun id d hd => h.known_exec call cipher.privateData hd
      · exact call.keepsFiles cipher.privateData hbeside.1 s.db
  | fence userId =>
      cases hstep
      exact h.keep (fun _ hid => hid) h.known (fun _ _ hv => hv)
  | erase userId =>
      cases hstep
      refine h.keep (fun _ hid => hid) ?_ (keepsFiles_deleteOwner (s.db.fenceOwner userId) userId)
      intro id d hd
      have hkept : (s.db.document? id).filter (fun d => d.userId ≠ userId) = some d :=
        (Database.document?_keepDocuments (s.db.fenceOwner userId) _ id).symm.trans hd
      exact h.known id d (Option.filter_eq_some_iff.mp hkept).1

/-- In every state of every run, whatever order the steps of jobs, requests and other calls come
in, a file document that is ready has all its chunks, each with the vector of its own text; one
that is processing has none; and one that failed has all of them or none. -/
theorem files_whole {s₀ : FileService} {steps : List (Step FileService FileEvent Unit)}
    (hinit : s₀.Initial) (h : Trace (StepTo opens) s₀ steps s) {v : FileView}
    (hv : fileOf s.db id = some v) :
    (v.document.status = .ready → v.Published opens s.returned) ∧
    (v.document.status = .processing → v.chunks = []) ∧
    (v.document.status = .failed → v.chunks = [] ∨ v.Published opens s.returned) := by
  have hsound : s.Sound opens := h.invariant hinit.sound fun hs hstep => hs.step hstep
  rcases hsound.files id v hv with hun | hpub
  · exact ⟨fun hready => absurd hready hun.status, fun _ => hun.chunks, fun _ => .inl hun.chunks⟩
  · exact ⟨fun _ => hpub, fun hprocessing => absurd hprocessing hpub.status, fun _ => .inr hpub⟩

end Steps

/-! ## A run -/

/-- Events that are possible in every state, one after the other. -/
theorem exists_trace {opens : Opens} {events : List FileEvent} {s s' : FileService}
    (hpossible : ∀ e ∈ events, ∀ s, Possible opens s e) (h : events.foldlM step s = some s') :
    ∃ steps, Trace (StepTo opens) s steps s' := by
  induction events generalizing s with
  | nil =>
      cases h
      exact ⟨[], .nil _⟩
  | cons e rest ih =>
      obtain ⟨m, hm, hrest⟩ := Option.bind_eq_some_iff.mp h
      obtain ⟨steps, htrace⟩ := ih (fun e' he' => hpossible e' (List.mem_cons_of_mem _ he')) hrest
      have hfirst : Trace (StepTo opens) s [⟨s, e, (), m⟩] m :=
        .snoc (.nil s) ⟨hpossible e List.mem_cons_self s, hm⟩
      exact ⟨_, hfirst.append htrace⟩

/-- The metadata of the chunks of a file `f` that have no others. -/
def sourceOnly : Json := .obj [("source", .str "f")]

/-- The key material in the clear, with a ciphertext of its own for these metadata. -/
def sourceOpens : Opens := fun ciphertext binding =>
  if ciphertext = "vault:v1:" then some sourceOnly else clearOpens ciphertext binding

/-- The cipher in the clear, with these metadata. -/
def sourceCipher : PrivateDataCipher where
  encrypt := fun value binding =>
    match value with
    | .obj [("source", .str "f")] => .ok "vault:v1:"
    | _ => clearCipher.encrypt value binding
  decrypt := fun ciphertext binding =>
    match sourceOpens ciphertext binding with
    | some value => .ok value
    | none => .error .privateDataUnavailable
  lookup := fun value _ => .ok ("vault:v1:" ++ value)

theorem sourceCipher_encrypt {value : Json} {binding : StorageBinding} {ciphertext : String}
    (h : sourceCipher.encrypt value binding = .ok ciphertext) :
    (value = sourceOnly ∧ ciphertext = "vault:v1:") ∨
      clearCipher.encrypt value binding = .ok ciphertext := by
  unfold sourceCipher at h
  dsimp only at h
  split at h
  · cases h
    exact .inl ⟨rfl, rfl⟩
  · exact .inr h

/-- The cipher of the sample run opens what it has encrypted, under its own binding only. -/
theorem sourceCipher_uses : sourceCipher.Uses sourceOpens where
  encrypt_prefix := by
    intro value binding ciphertext h
    rcases sourceCipher_encrypt h with ⟨-, rfl⟩ | h
    · decide
    · exact clearCipher_uses.encrypt_prefix h
  encrypt_opens := by
    intro value binding ciphertext h
    rcases sourceCipher_encrypt h with ⟨rfl, rfl⟩ | h
    · exact if_pos rfl
    · unfold sourceOpens
      rw [if_neg (clearCipher_encrypt_ne h)]
      exact clearCipher_uses.encrypt_opens h
  decrypt_opens := by
    intro value binding ciphertext h
    unfold sourceCipher at h
    dsimp only at h
    split at h
    · next hopens =>
        cases h
        exact hopens
    · cases h
  decrypt_error := by
    intro value binding ciphertext e hopens h
    unfold sourceCipher at h
    dsimp only at h
    rw [hopens] at h
    cases h

/-- A run over an empty upload, from which Docling cuts a text and a blank. -/
def wholeEnv : IngestEnv where
  Parsed := Unit
  world := fun _ => .empty
  outage := fun _ => none
  lib :=
    { dumps := fun _ => .error (.other "not in the sample")
      loads := fun _ => .ok (.obj [("manifest", .str "m")])
      dumpEnvelope := fun _ _ => ""
      loadEnvelope := fun _ => .error (.valueError "Expecting value")
      sha256 := fun _ => "" }
  cipher :=
    { encrypt := fun _ _ => .error (.other "not in the sample")
      decrypt := fun _ _ =>
        .ok (.obj [("count", .num 0), ("bytes", .num 0), ("sha256", .str "")])
      lookup := fun _ _ => .error (.other "not in the sample") }
  volatile := true
  file := ⟨false, some [uploadHeader, [0]]⟩
  parse := fun _ => .ok ()
  chunk := fun _ => .ok (chunkSync "f" [⟨" a ", .dict []⟩, ⟨" ", .dict []⟩])
  embed := fun texts => .ok (texts.map fun _ => [1])
  uuid4 := fun _ => 0
  now := 0

/-- The upload that is published. -/
def wholeJob : IngestJob := ⟨5, ⟨"d", "f"⟩, 1⟩

/-- An upload of owner 2. -/
def erasedJob : IngestJob := ⟨6, ⟨"d", "g"⟩, 2⟩

/-- A second upload of owner 1. -/
def deletedJob : IngestJob := ⟨7, ⟨"d", "h"⟩, 1⟩

/-- Three uploads are created.  That of document 5 is published; the second upload of its owner is
deleted, and owner 2 is erased before his job publishes; then document 5 is reindexed. -/
def wholeRun : List FileEvent :=
  [.create sourceCipher wholeJob 0 "key" "f" "m", .job 5 .enqueue,
    .create sourceCipher erasedJob 0 "key" "g" "m", .job 6 .enqueue,
    .create sourceCipher deletedJob 0 "key2" "h" "m",
    .job 5 (.prepare (prepare wholeEnv wholeJob)), .job 6 (.prepare (prepare wholeEnv erasedJob)),
    .job 5 (.publish sourceCipher (fun _ => 9) 0 none),
    .serve sourceCipher (.deleteDocument 7 1), .request 3 5 1, .fence 2,
    .reindex 3 (.read sourceCipher none), .erase 2,
    .job 6 (.publish sourceCipher (fun _ => 10) 0 none), .reindex 3 (.embed (.ok [[2]])),
    .reindex 3 (.store 1 none)]

/-- A service in which nothing has happened. -/
def wholeStart : FileService := ⟨.empty, .empty, .empty, [], []⟩

/-- Docling cuts the chunks of this run. -/
theorem wholeEnv_cuts : wholeEnv.CutsByDocling := by
  intro parsed chunks hchunks
  cases hchunks
  exact ⟨_, _, rfl⟩

theorem wholeRun_possible : ∀ e ∈ wholeRun, ∀ s, Possible sourceOpens s e := by
  intro e he s
  simp only [wholeRun, List.mem_cons, List.not_mem_nil, or_false] at he
  rcases he with rfl | rfl | rfl | rfl | rfl | rfl | rfl | rfl | rfl | rfl | rfl | rfl | rfl | rfl |
    rfl | rfl
  any_goals trivial
  · exact fun _ _ => ⟨wholeEnv, wholeEnv_cuts, rfl⟩
  · exact fun _ _ => ⟨wholeEnv, wholeEnv_cuts, rfl⟩
  · exact sourceCipher_uses
  · exact sourceCipher_uses
  · exact sourceCipher_uses

/-- With a document deleted and an owner erased beside it, document 5 is published whole. -/
theorem files_whole_sample : ∃ s steps v, Trace (StepTo sourceOpens) wholeStart steps s ∧
    s.used = [7, 6, 5] ∧ fileOf s.db 6 = none ∧ fileOf s.db 7 = none ∧
    fileOf s.db 5 = some v ∧ v.Published sourceOpens s.returned := by
  have hends : (wholeRun.foldlM step wholeStart).bind (fun s => (fileOf s.db 5).map
      (fun v => (s.used, (fileOf s.db 6).isSome, (fileOf s.db 7).isSome, v.document.status))) =
      some ([7, 6, 5], false, false, .ready) := by decide +kernel
  obtain ⟨s, hs, hends⟩ := Option.bind_eq_some_iff.mp hends
  obtain ⟨v, hv, hends⟩ := Option.map_eq_some_iff.mp hends
  simp only [Prod.mk.injEq, Option.isSome_eq_false_iff, Option.isNone_iff_eq_none] at hends
  obtain ⟨hused, herased, hdeleted, hstatus⟩ := hends
  obtain ⟨steps, htrace⟩ := exists_trace wholeRun_possible hs
  have hinit : wholeStart.Initial := ⟨rfl, rfl, rfl⟩
  exact ⟨s, steps, v, htrace, hused, herased, hdeleted, hv,
    (files_whole hinit htrace hv).1 hstatus⟩

end FileService

end PortRag.Service
