import PortRag.Maintenance.Kept

set_option autoImplicit false

/-!
# A completed backfill

What is true once `backfill` with `apply` has completed: every row of the four tables has been
visited once and has kept what it stands for, nothing is legacy any more, and a further
backfill converts nothing.
-/

namespace PortRag.Maintenance

open PortRag.Foundation PortRag.Db PortRag.Security PortRag.Http PortRag.Ingest PortRag.Knowledge
  PortRag.Webpages

/-! ## The tables -/

section Tables

variable {ρ α : Type} {T : Target ρ α} {cipher : PrivateDataCipher} {admissible : ρ → Prop}
  {Row : Uuid → ρ → ρ → Prop}

/-- The turn of a row is related to the row. -/
theorem Keeps.turn (hkeeps : Keeps T cipher admissible Row) {x : ρ × Uuid} {values : α}
    (hx : admissible x.1) (hvalues : T.convert cipher x.1 x.2 = .ok values) :
    (T.turn cipher x).2 = x.2 ∧ Row x.2 x.1 (T.turn cipher x).1 := by
  rw [Target.turn_of_ok hvalues]
  split
  · exact ⟨rfl, hkeeps.written hx hvalues⟩
  · next hlegacy =>
      rw [Bool.not_eq_true] at hlegacy
      exact ⟨rfl, hkeeps.untouched hx hvalues hlegacy⟩

/-- A completed backfill of one table. -/
structure TableKept (T : Target ρ α) (cipher : PrivateDataCipher) (Row : Uuid → ρ → ρ → Prop)
    (before after : Database) (p : Progress) : Prop where
  visited : p.visited.Perm ((T.rows before).map T.rowKey)
  rows : List.Forall₂ (fun x y => y.2 = x.2 ∧ Row x.2 x.1 y.1) (T.rows before) (T.rows after)

theorem backfillTarget_kept (hT : T.Lawful) (hkeeps : Keeps T cipher admissible Row)
    {s : Session} {p : Progress} (hrows : ∀ x ∈ T.rows s.db, admissible x.1)
    (h : backfillTarget T cipher true s = .ok p) :
    TableKept T cipher Row s.db p.session.db p := by
  obtain ⟨hvisited, hconvert, hturns⟩ := backfillTarget_ok hT h
  refine ⟨hvisited, ?_⟩
  rw [hturns, List.forall₂_map_right_iff, List.forall₂_same]
  intro x hx
  obtain ⟨values, hvalues⟩ := hconvert x hx
  exact hkeeps.turn (hrows x hx) hvalues

/-- After a completed backfill of the table nothing in it is legacy. -/
theorem TableKept.settled (hkeeps : Keeps T cipher admissible Row) {before after : Database}
    {p : Progress} (h : TableKept T cipher Row before after p) :
    ∀ y ∈ T.rows after, T.legacy y.1 = false := by
  intro y hy
  obtain ⟨x, -, -, hrow⟩ := Forall₂.exists_left h.rows y hy
  exact hkeeps.settled hrow

theorem TableKept.converts (hkeeps : Keeps T cipher admissible Row) {before after : Database}
    {p : Progress} (h : TableKept T cipher Row before after p) :
    ∀ y ∈ T.rows after, ∃ values, T.convert cipher y.1 y.2 = .ok values := by
  intro y hy
  obtain ⟨x, -, howner, hrow⟩ := Forall₂.exists_left h.rows y hy
  rw [howner]
  exact hkeeps.converts hrow

/-- The rows of a join, each under the owner that the join finds. -/
theorem rows_of_withOwner {rows rows' : List ρ} {owner owner' : ρ → Option Uuid}
    (h : List.Forall₂ (fun x y => y.2 = x.2 ∧ Row x.2 x.1 y.1)
      (withOwner rows owner) (withOwner rows' owner'))
    (hrows : ∀ r ∈ rows, (owner r).isSome = true) (hrows' : ∀ r ∈ rows', (owner' r).isSome = true) :
    List.Forall₂ (fun a b => ∀ o, owner a = some o → Row o a b) rows rows' := by
  have howner : ∀ x ∈ withOwner rows owner, owner x.1 = some x.2 := by
    intro x hx
    obtain ⟨r, -, hx⟩ := List.mem_filterMap.mp hx
    obtain ⟨o, ho, rfl⟩ := Option.map_eq_some_iff.mp hx
    exact ho
  have hall := (List.forall₂_and_left _ _).mpr ⟨howner, h⟩
  have hmapped : List.Forall₂ (fun a b => ∀ o, owner a = some o → Row o a b)
      ((withOwner rows owner).map Prod.fst) ((withOwner rows' owner').map Prod.fst) := by
    rw [List.forall₂_map_left_iff, List.forall₂_map_right_iff]
    refine hall.imp ?_
    rintro x y ⟨hx, -, hrow⟩ o ho
    rw [hx] at ho
    cases ho
    exact hrow
  rwa [map_fst_withOwner hrows, map_fst_withOwner hrows'] at hmapped

end Tables

/-- The keys of a join without rows lost. -/
theorem map_key_withOwner {ρ κ : Type} {owner : ρ → Option Uuid} {rows : List ρ} (key : ρ → κ)
    (h : ∀ r ∈ rows, (owner r).isSome = true) :
    (withOwner rows owner).map (fun x => key x.1) = rows.map key := by
  have hfst := congrArg (List.map key) (map_fst_withOwner h)
  rwa [List.map_map] at hfst

/-! ## What each target leaves alone -/

/-- The tables that no target writes, and the trigger. -/
def untouched (s : Session) :=
  (s.db.revisions, s.db.revisionWebpages, s.db.erasedOwners, s.triggerEnabled)

theorem updateDocument_left {s s' : Session} {id : Uuid} {values : DocumentColumns}
    (h : updateDocument s id values = .ok s') :
    (s'.db.chunks, s'.db.revisionChunks, s'.db.webpages, ownerOf s'.db, untouched s') =
      (s.db.chunks, s.db.revisionChunks, s.db.webpages, ownerOf s.db, untouched s) := by
  unfold updateDocument at h
  split at h
  · cases h
    rfl
  · next row hrow =>
      obtain ⟨-, -, h⟩ := bind_eq_ok.mp h
      cases h
      have hid : row.id = id := Database.document?_id hrow
      have hsame : (assignDocument values row).id = id := hid
      have howner : ownerOf (s.db.updateDocument (assignDocument values row)) = ownerOf s.db := by
        funext other
        unfold ownerOf
        rw [Database.document?_updateDocument (by rw [hsame]; exact hrow)]
        split
        · next hother => rw [hother, hsame, hrow]; rfl
        · rfl
      rw [howner]
      rfl

theorem updateChunk_left {s s' : Session} {id : Uuid} {values : ChunkColumns}
    (h : updateChunk s id values = .ok s') :
    (s'.db.documents, s'.db.revisionChunks, s'.db.webpages, untouched s') =
      (s.db.documents, s.db.revisionChunks, s.db.webpages, untouched s) := by
  unfold updateChunk at h
  split at h
  · cases h
    rfl
  · obtain ⟨-, -, h⟩ := bind_eq_ok.mp h
    cases h
    rfl

theorem updateFrozen_left {s s' : Session} {id : Uuid} {values : FrozenColumns}
    (h : updateFrozen s id values = .ok s') :
    (s'.db.documents, s'.db.chunks, s'.db.webpages, untouched s') =
      (s.db.documents, s.db.chunks, s.db.webpages, untouched s) := by
  unfold updateFrozen at h
  split at h
  · cases h
  · cases h
    rfl

theorem updateWebpage_left {s s' : Session} {id : Uuid} {values : WebpageColumns}
    (h : updateWebpage s id values = .ok s') :
    (s'.db.documents, s'.db.chunks, s'.db.revisionChunks, untouched s') =
      (s.db.documents, s.db.chunks, s.db.revisionChunks, untouched s) := by
  unfold updateWebpage at h
  split at h
  · cases h
    rfl
  · obtain ⟨-, -, h⟩ := bind_eq_ok.mp h
    split at h
    · cases h
    · cases h
      rfl

/-! ## The whole backfill -/

theorem isSome_ownerOf_chunk (db : Database) :
    ∀ c ∈ db.chunks.rows, (ownerOf db c.documentId).isSome = true := by
  intro c hc
  obtain ⟨d, hd, hid⟩ := db.chunks_fk c hc
  have hfind : db.document? c.documentId = some d := Database.document?_eq_some_iff.mpr ⟨hd, hid⟩
  rw [ownerOf, hfind]
  rfl

theorem isSome_ownerOf_webpage (db : Database) :
    ∀ p ∈ db.webpages.rows, (ownerOf db p.documentId).isSome = true := by
  intro p hp
  obtain ⟨d, hd, hid⟩ := db.webpages_fk p hp
  have hfind : db.document? p.documentId = some d := Database.document?_eq_some_iff.mpr ⟨hd, hid⟩
  rw [ownerOf, hfind]
  rfl

theorem isSome_revisionOwnerOf (db : Database) :
    ∀ c ∈ db.revisionChunks.rows, (revisionOwnerOf db c.revisionId).isSome = true := by
  intro c hc
  obtain ⟨r, hr, hid⟩ := db.revisionChunks_fk c hc
  rw [revisionOwnerOf, ← hid, Table.find?_of_mem hr]
  rfl

/-- No row is legacy. -/
structure Settled (db : Database) : Prop where
  documents : ∀ d ∈ db.documents.rows, Maintenance.documents.legacy d = false
  chunks : ∀ c ∈ db.chunks.rows, Maintenance.chunks.legacy c = false
  revisionChunks : ∀ c ∈ db.revisionChunks.rows, Maintenance.revisionChunks.legacy c = false
  webpages : ∀ p ∈ db.webpages.rows, documentWebpages.legacy p = false

/-- A completed backfill: every row of the four tables has been visited once and is kept, and
the rest of the database is as it was. -/
structure Backfilled (cipher : PrivateDataCipher) (before after : Session)
    (reports : List Report) : Prop where
  visited : List.Forall₂ (fun (r : Report) keys => r.visited.Perm keys) reports
    [before.db.documents.rows.map Document.id, before.db.chunks.rows.map DocumentChunk.id,
      before.db.revisionChunks.rows.map KnowledgeRevisionChunk.id,
      before.db.webpages.rows.map DocumentWebpage.documentId]
  documents : List.Forall₂ (fun a b => DocumentKept cipher a.userId a b)
    before.db.documents.rows after.db.documents.rows
  chunks : List.Forall₂
    (fun a b => ∀ owner, ownerOf before.db a.documentId = some owner → ChunkKept cipher owner a b)
    before.db.chunks.rows after.db.chunks.rows
  revisionChunks : List.Forall₂
    (fun a b => ∀ owner, revisionOwnerOf before.db a.revisionId = some owner →
      FrozenKept cipher owner a b)
    before.db.revisionChunks.rows after.db.revisionChunks.rows
  webpages : List.Forall₂
    (fun a b => ∀ owner, ownerOf before.db a.documentId = some owner → WebpageKept cipher owner a b)
    before.db.webpages.rows after.db.webpages.rows
  settled : Settled after.db
  owners : ownerOf after.db = ownerOf before.db
  untouched : untouched after = untouched before

section Backfill

variable {cipher : PrivateDataCipher}

/-- What the backfill of the frozen chunks did. -/
theorem backfillFrozen_ok {s : Session} {p : Progress} (h : backfillFrozen cipher true s = .ok p) :
    s.triggerEnabled = true ∧ ∃ q, p = { q with session := { q.session with triggerEnabled := true } } ∧
      backfillTarget revisionChunks cipher true { s with triggerEnabled := false } = .ok q := by
  unfold backfillFrozen at h
  rw [Bool.not_true, if_neg Bool.false_ne_true] at h
  split at h
  · cases h
  · next htrigger =>
      obtain ⟨q, hq, h⟩ := bind_eq_ok.mp h
      cases h
      exact ⟨by simpa using htrigger, q, rfl, hq⟩

/-- What a completed backfill did, target by target. -/
theorem backfill_ok {s s' : Session} {reports : List Report}
    (h : backfill cipher true s = .ok (reports, s')) :
    ∃ p₁ p₂ p₃ p₄, backfillTarget documents cipher true s = .ok p₁ ∧
      backfillTarget chunks cipher true p₁.session = .ok p₂ ∧
      backfillFrozen cipher true p₂.session = .ok p₃ ∧
      backfillTarget documentWebpages cipher true p₃.session = .ok p₄ ∧
      reports = [p₁.report documents.table, p₂.report chunks.table,
        p₃.report revisionChunks.table, p₄.report documentWebpages.table] ∧
      s' = p₄.session := by
  obtain ⟨p₁, h₁, h⟩ := bind_eq_ok.mp h
  obtain ⟨p₂, h₂, h⟩ := bind_eq_ok.mp h
  obtain ⟨p₃, h₃, h⟩ := bind_eq_ok.mp h
  obtain ⟨p₄, h₄, h⟩ := bind_eq_ok.mp h
  cases h
  exact ⟨p₁, p₂, p₃, p₄, h₁, h₂, h₃, h₄, rfl, rfl⟩

/-- The backfill of `documents`, seen from the tables. -/
theorem backfillDocuments_kept (hcipher : Dependable cipher) {s : Session} {p : Progress}
    (h : backfillTarget documents cipher true s = .ok p) :
    p.visited.Perm (s.db.documents.rows.map Document.id) ∧
      List.Forall₂ (fun a b => DocumentKept cipher a.userId a b)
        s.db.documents.rows p.session.db.documents.rows := by
  have hkept := backfillTarget_kept documents_lawful (documents_keeps hcipher)
    (fun _ _ => trivial) h
  constructor
  · have hvisited := hkept.visited
    change p.visited.Perm ((s.db.documents.rows.map (fun d => (d, d.userId))).map
      documents.rowKey) at hvisited
    rw [List.map_map] at hvisited
    exact hvisited
  · have hrows := hkept.rows
    change List.Forall₂ _ (s.db.documents.rows.map (fun d => (d, d.userId)))
      (p.session.db.documents.rows.map (fun d => (d, d.userId))) at hrows
    rw [List.forall₂_map_left_iff, List.forall₂_map_right_iff] at hrows
    exact hrows.imp (fun _ _ hrow => hrow.2)

/-- The backfill of `chunks`, seen from the tables. -/
theorem backfillChunks_kept (hcipher : Dependable cipher) {s : Session} {p : Progress}
    (h : backfillTarget chunks cipher true s = .ok p) :
    p.visited.Perm (s.db.chunks.rows.map DocumentChunk.id) ∧
      List.Forall₂ (fun a b => ∀ owner, ownerOf s.db a.documentId = some owner →
        ChunkKept cipher owner a b) s.db.chunks.rows p.session.db.chunks.rows := by
  have hkept := backfillTarget_kept chunks_lawful (chunks_keeps hcipher) (fun _ _ => trivial) h
  constructor
  · have hvisited := hkept.visited
    change p.visited.Perm ((chunkOwners s.db).map (fun x => x.1.id)) at hvisited
    rw [chunkOwners_eq] at hvisited
    have hkeys := map_key_withOwner DocumentChunk.id (isSome_ownerOf_chunk s.db)
    exact hkeys ▸ hvisited
  · have hrows := hkept.rows
    change List.Forall₂ _ (chunkOwners s.db) (chunkOwners p.session.db) at hrows
    rw [chunkOwners_eq, chunkOwners_eq] at hrows
    exact rows_of_withOwner hrows (isSome_ownerOf_chunk s.db) (isSome_ownerOf_chunk _)

/-- The backfill of `knowledge_revision_chunks`, seen from the tables. -/
theorem backfillFrozen_kept (hcipher : Dependable cipher) {s : Session} {p : Progress}
    (h : backfillFrozen cipher true s = .ok p) :
    p.visited.Perm (s.db.revisionChunks.rows.map KnowledgeRevisionChunk.id) ∧
      List.Forall₂ (fun a b => ∀ owner, revisionOwnerOf s.db a.revisionId = some owner →
        FrozenKept cipher owner a b) s.db.revisionChunks.rows p.session.db.revisionChunks.rows := by
  obtain ⟨-, q, rfl, hq⟩ := backfillFrozen_ok h
  have hkept := backfillTarget_kept revisionChunks_lawful (revisionChunks_keeps hcipher)
    (fun _ _ => trivial) hq
  constructor
  · have hvisited := hkept.visited
    change q.visited.Perm ((frozenOwners s.db).map (fun x => x.1.id)) at hvisited
    rw [frozenOwners_eq] at hvisited
    have hkeys := map_key_withOwner KnowledgeRevisionChunk.id (isSome_revisionOwnerOf s.db)
    exact hkeys ▸ hvisited
  · have hrows := hkept.rows
    change List.Forall₂ _ (frozenOwners s.db) (frozenOwners q.session.db) at hrows
    rw [frozenOwners_eq, frozenOwners_eq] at hrows
    exact rows_of_withOwner hrows (isSome_revisionOwnerOf s.db) (isSome_revisionOwnerOf _)

/-- The backfill of `document_webpages`, seen from the tables. -/
theorem backfillWebpages_kept (hcipher : Dependable cipher) {s : Session} {p : Progress}
    (hhash : ∀ page ∈ s.db.webpages.rows, page.contentHash ≠ some "")
    (h : backfillTarget documentWebpages cipher true s = .ok p) :
    p.visited.Perm (s.db.webpages.rows.map DocumentWebpage.documentId) ∧
      List.Forall₂ (fun a b => ∀ owner, ownerOf s.db a.documentId = some owner →
        WebpageKept cipher owner a b) s.db.webpages.rows p.session.db.webpages.rows := by
  have hadmissible : ∀ x ∈ documentWebpages.rows s.db, x.1.contentHash ≠ some "" := by
    intro x hx
    change x ∈ webpageOwners s.db at hx
    rw [webpageOwners_eq] at hx
    exact hhash x.1 (fst_mem_of_withOwner hx)
  have hkept := backfillTarget_kept documentWebpages_lawful (documentWebpages_keeps hcipher)
    hadmissible h
  constructor
  · have hvisited := hkept.visited
    change p.visited.Perm ((webpageOwners s.db).map (fun x => x.1.documentId)) at hvisited
    rw [webpageOwners_eq] at hvisited
    have hkeys := map_key_withOwner DocumentWebpage.documentId (isSome_ownerOf_webpage s.db)
    exact hkeys ▸ hvisited
  · have hrows := hkept.rows
    change List.Forall₂ _ (webpageOwners s.db) (webpageOwners p.session.db) at hrows
    rw [webpageOwners_eq, webpageOwners_eq] at hrows
    exact rows_of_withOwner hrows (isSome_ownerOf_webpage s.db) (isSome_ownerOf_webpage _)

/-- Rows that are kept under their owners are settled. -/
theorem settled_of_rows {ρ : Type} {rows rows' : List ρ} {owner : ρ → Option Uuid}
    {Row : Uuid → ρ → ρ → Prop} {legacy : ρ → Bool}
    (hsettled : ∀ {o a b}, Row o a b → legacy b = false)
    (howner : ∀ r ∈ rows, (owner r).isSome = true)
    (h : List.Forall₂ (fun a b => ∀ o, owner a = some o → Row o a b) rows rows') :
    ∀ r ∈ rows', legacy r = false := by
  intro r hr
  obtain ⟨a, ha, hrow⟩ := Forall₂.exists_left h r hr
  obtain ⟨o, ho⟩ := Option.isSome_iff_exists.mp (howner a ha)
  exact hsettled (hrow o ho)

/-- A completed backfill has visited every row of the four tables, kept what it stands for, and left
nothing legacy.  The four targets touch different tables, so what one has written the others leave.
-/
theorem backfill_backfilled (hcipher : Dependable cipher) {s s' : Session} {reports : List Report}
    (hhash : ∀ page ∈ s.db.webpages.rows, page.contentHash ≠ some "")
    (h : backfill cipher true s = .ok (reports, s')) : Backfilled cipher s s' reports := by
  obtain ⟨p₁, p₂, p₃, p₄, h₁, h₂, h₃, h₄, rfl, rfl⟩ := backfill_ok h
  obtain ⟨htrigger, q, hq, hfrozen⟩ := backfillFrozen_ok h₃
  -- what each target leaves alone
  have hleft₁ := backfillTarget_left documents_lawful _ updateDocument_left h₁
  have hleft₂ := backfillTarget_left chunks_lawful _ updateChunk_left h₂
  have hleft₃ := backfillTarget_left revisionChunks_lawful _ updateFrozen_left hfrozen
  have hleft₄ := backfillTarget_left documentWebpages_lawful _ updateWebpage_left h₄
  simp only [untouched, Prod.mk.injEq] at hleft₁ hleft₂ hleft₃ hleft₄
  obtain ⟨hchunks₁, hfrozen₁, hpages₁, howners₁, hrevisions₁, hmembers₁, herased₁, htrigger₁⟩ := hleft₁
  obtain ⟨hdocs₂, hfrozen₂, hpages₂, hrevisions₂, hmembers₂, herased₂, htrigger₂⟩ := hleft₂
  obtain ⟨hdocs₃, hchunks₃, hpages₃, hrevisions₃, hmembers₃, herased₃, -⟩ := hleft₃
  obtain ⟨hdocs₄, hchunks₄, hfrozen₄, hrevisions₄, hmembers₄, herased₄, htrigger₄⟩ := hleft₄
  have hdb : p₃.session.db = q.session.db := by rw [hq]
  have hon : p₃.session.triggerEnabled = true := by rw [hq]
  rw [← hdb] at hdocs₃ hchunks₃ hpages₃ hrevisions₃ hmembers₃ herased₃
  have howners₂ : ownerOf p₂.session.db = ownerOf p₁.session.db := by
    funext id
    unfold ownerOf Database.document?
    rw [hdocs₂]
  have howners₃ : ownerOf p₃.session.db = ownerOf p₂.session.db := by
    funext id
    unfold ownerOf Database.document?
    rw [hdocs₃]
  have hrevisionOwners : revisionOwnerOf p₂.session.db = revisionOwnerOf s.db := by
    funext id
    unfold revisionOwnerOf
    rw [hrevisions₂, hrevisions₁]
  -- each table from the target that writes it
  obtain ⟨hvisited₁, hrows₁⟩ := backfillDocuments_kept hcipher h₁
  obtain ⟨hvisited₂, hrows₂⟩ := backfillChunks_kept hcipher h₂
  obtain ⟨hvisited₃, hrows₃⟩ := backfillFrozen_kept hcipher h₃
  have hhash₃ : ∀ page ∈ p₃.session.db.webpages.rows, page.contentHash ≠ some "" := by
    rw [hpages₃, hpages₂, hpages₁]
    exact hhash
  obtain ⟨hvisited₄, hrows₄⟩ := backfillWebpages_kept hcipher hhash₃ h₄
  rw [hchunks₁] at hvisited₂
  rw [howners₁, hchunks₁, ← hchunks₃, ← hchunks₄] at hrows₂
  rw [hfrozen₂, hfrozen₁] at hvisited₃
  rw [hrevisionOwners, hfrozen₂, hfrozen₁, ← hfrozen₄] at hrows₃
  rw [hpages₃, hpages₂, hpages₁] at hvisited₄
  rw [howners₃, howners₂, howners₁, hpages₃, hpages₂, hpages₁] at hrows₄
  rw [← hdocs₂, ← hdocs₃, ← hdocs₄] at hrows₁
  have howners₄ : ownerOf p₄.session.db = ownerOf p₃.session.db := by
    funext id
    unfold ownerOf Database.document?
    rw [hdocs₄]
  have howners := howners₄.trans (howners₃.trans (howners₂.trans howners₁))
  refine ⟨?_, hrows₁, hrows₂, hrows₃, hrows₄, ?_, howners, ?_⟩
  · exact .cons hvisited₁ (.cons hvisited₂ (.cons hvisited₃ (.cons hvisited₄ .nil)))
  · refine ⟨?_, ?_, ?_, ?_⟩
    · intro d hd
      obtain ⟨a, -, hrow⟩ := Forall₂.exists_left hrows₁ d hd
      exact (documents_keeps hcipher).settled hrow
    · exact settled_of_rows (chunks_keeps hcipher).settled (isSome_ownerOf_chunk s.db) hrows₂
    · exact settled_of_rows (revisionChunks_keeps hcipher).settled (isSome_revisionOwnerOf s.db) hrows₃
    · exact settled_of_rows (documentWebpages_keeps hcipher).settled (isSome_ownerOf_webpage s.db) hrows₄
  · unfold untouched
    rw [hrevisions₄, hrevisions₃, hrevisions₂, hrevisions₁, hmembers₄, hmembers₃, hmembers₂,
      hmembers₁, herased₄, herased₃, herased₂, herased₁, htrigger₄, hon, htrigger₁.symm,
      htrigger₂.symm, htrigger]

/-! ## A further backfill -/

/-- Rows that are kept under their owners convert. -/
theorem converts_of_rows {ρ α : Type} {T : Target ρ α} {rows rows' : List ρ}
    {owner : ρ → Option Uuid} {Row : Uuid → ρ → ρ → Prop} {admissible : ρ → Prop}
    (hkeeps : Keeps T cipher admissible Row)
    (howner : ∀ {o a b}, Row o a b → owner b = owner a)
    (hrows : ∀ r ∈ rows, (owner r).isSome = true)
    (h : List.Forall₂ (fun a b => ∀ o, owner a = some o → Row o a b) rows rows') :
    ∀ x ∈ withOwner rows' owner, ∃ values, T.convert cipher x.1 x.2 = .ok values := by
  intro x hx
  obtain ⟨b, hb, hx⟩ := List.mem_filterMap.mp hx
  obtain ⟨o, ho, rfl⟩ := Option.map_eq_some_iff.mp hx
  obtain ⟨a, ha, hrow⟩ := Forall₂.exists_left h b hb
  obtain ⟨o', ho'⟩ := Option.isSome_iff_exists.mp (hrows a ha)
  have hsame := howner (hrow o' ho')
  rw [ho, ho'] at hsame
  cases hsame
  exact hkeeps.converts (hrow o ho')

/-- Rows that are not legacy stay so under the join. -/
theorem settled_withOwner {ρ : Type} {rows : List ρ} {owner : ρ → Option Uuid} {legacy : ρ → Bool}
    (h : ∀ r ∈ rows, legacy r = false) : ∀ x ∈ withOwner rows owner, legacy x.1 = false :=
  fun x hx => h x.1 (fst_mem_of_withOwner hx)

theorem Settled.documentRows {db : Database} (h : Settled db) :
    ∀ x ∈ Maintenance.documents.rows db, Maintenance.documents.legacy x.1 = false := by
  intro x hx
  obtain ⟨d, hd, rfl⟩ := List.mem_map.mp hx
  exact h.documents d hd

theorem Settled.chunkRows {db : Database} (h : Settled db) :
    ∀ x ∈ Maintenance.chunks.rows db, Maintenance.chunks.legacy x.1 = false := by
  change ∀ x ∈ chunkOwners db, _
  rw [chunkOwners_eq]
  exact settled_withOwner h.chunks

theorem Settled.frozenRows {db : Database} (h : Settled db) :
    ∀ x ∈ Maintenance.revisionChunks.rows db, Maintenance.revisionChunks.legacy x.1 = false := by
  change ∀ x ∈ frozenOwners db, _
  rw [frozenOwners_eq]
  exact settled_withOwner h.revisionChunks

theorem Settled.webpageRows {db : Database} (h : Settled db) :
    ∀ x ∈ documentWebpages.rows db, documentWebpages.legacy x.1 = false := by
  change ∀ x ∈ webpageOwners db, _
  rw [webpageOwners_eq]
  exact settled_withOwner h.webpages

/-- The backfill of a table without legacy rows writes nothing. -/
theorem backfillTarget_of_settled {ρ α : Type} {T : Target ρ α} (hT : T.Lawful) {s : Session}
    {p : Progress} (hlegacy : ∀ x ∈ T.rows s.db, T.legacy x.1 = false)
    (h : backfillTarget T cipher true s = .ok p) : p.session = s ∧ p.converted = 0 := by
  obtain ⟨-, hconvert, -⟩ := backfillTarget_ok hT h
  obtain ⟨visited, hsame⟩ := backfillTarget_settled hT hlegacy hconvert
  rw [h] at hsame
  cases hsame
  exact ⟨rfl, rfl⟩

/-- A completed backfill of a settled database converted nothing. -/
theorem backfill_of_settled {s s' : Session} {reports : List Report} (hsettled : Settled s.db)
    (h : backfill cipher true s = .ok (reports, s')) :
    s' = s ∧ ∀ r ∈ reports, r.converted = 0 := by
  obtain ⟨p₁, p₂, p₃, p₄, h₁, h₂, h₃, h₄, rfl, rfl⟩ := backfill_ok h
  obtain ⟨hsame₁, hnone₁⟩ := backfillTarget_of_settled documents_lawful hsettled.documentRows h₁
  rw [hsame₁] at h₂
  obtain ⟨hsame₂, hnone₂⟩ := backfillTarget_of_settled chunks_lawful hsettled.chunkRows h₂
  rw [hsame₂] at h₃
  obtain ⟨htrigger, q, rfl, hq⟩ := backfillFrozen_ok h₃
  have hfrozen : ∀ x ∈ revisionChunks.rows ({ s with triggerEnabled := false } : Session).db,
      revisionChunks.legacy x.1 = false := hsettled.frozenRows
  obtain ⟨hsame₃, hnone₃⟩ := backfillTarget_of_settled revisionChunks_lawful hfrozen hq
  have hback : ({ q.session with triggerEnabled := true } : Session) = s := by
    rw [hsame₃, ← htrigger]
  change backfillTarget documentWebpages cipher true { q.session with triggerEnabled := true } =
    .ok p₄ at h₄
  rw [hback] at h₄
  obtain ⟨hsame₄, hnone₄⟩ := backfillTarget_of_settled documentWebpages_lawful
    hsettled.webpageRows h₄
  refine ⟨hsame₄, ?_⟩
  intro r hr
  simp only [List.mem_cons, List.not_mem_nil, or_false] at hr
  rcases hr with rfl | rfl | rfl | rfl
  · exact hnone₁
  · exact hnone₂
  · exact hnone₃
  · exact hnone₄

/-- What a completed backfill has written, a further backfill reads: every column is passed over,
and nothing is changed. -/
theorem backfill_completes (hcipher : Dependable cipher) {s s' : Session} {reports : List Report}
    (h : Backfilled cipher s s' reports) (htrigger : s'.triggerEnabled = true) :
    ∃ reports', backfill cipher true s' = .ok (reports', s') := by
  have hrevisions : revisionOwnerOf s'.db = revisionOwnerOf s.db := by
    have huntouched := h.untouched
    simp only [untouched, Prod.mk.injEq] at huntouched
    funext id
    unfold revisionOwnerOf
    rw [huntouched.1]
  have hdocuments : ∀ x ∈ documents.rows s'.db,
      ∃ values, documents.convert cipher x.1 x.2 = .ok values := by
    intro x hx
    obtain ⟨d, hd, rfl⟩ := List.mem_map.mp hx
    obtain ⟨a, -, hrow⟩ := Forall₂.exists_left h.documents d hd
    have howner : d.userId = a.userId := by rw [hrow.others]
    rw [howner]
    exact (documents_keeps hcipher).converts hrow
  have hchunks : ∀ x ∈ chunks.rows s'.db, ∃ values, chunks.convert cipher x.1 x.2 = .ok values := by
    change ∀ x ∈ chunkOwners s'.db, _
    rw [chunkOwners_eq, h.owners]
    exact converts_of_rows (chunks_keeps hcipher) (fun hrow => by rw [hrow.others])
      (isSome_ownerOf_chunk s.db) h.chunks
  have hfrozen : ∀ x ∈ revisionChunks.rows s'.db,
      ∃ values, revisionChunks.convert cipher x.1 x.2 = .ok values := by
    change ∀ x ∈ frozenOwners s'.db, _
    rw [frozenOwners_eq, hrevisions]
    exact converts_of_rows (revisionChunks_keeps hcipher) (fun hrow => by rw [hrow.others])
      (isSome_revisionOwnerOf s.db) h.revisionChunks
  have hpages : ∀ x ∈ documentWebpages.rows s'.db,
      ∃ values, documentWebpages.convert cipher x.1 x.2 = .ok values := by
    change ∀ x ∈ webpageOwners s'.db, _
    rw [webpageOwners_eq, h.owners]
    exact converts_of_rows (documentWebpages_keeps hcipher) (fun hrow => by rw [hrow.others])
      (isSome_ownerOf_webpage s.db) h.webpages
  obtain ⟨v₁, h₁⟩ := backfillTarget_settled documents_lawful h.settled.documentRows hdocuments
  obtain ⟨v₂, h₂⟩ := backfillTarget_settled chunks_lawful h.settled.chunkRows hchunks
  obtain ⟨v₃, h₃⟩ := @backfillTarget_settled _ _ _ cipher revisionChunks_lawful
    { s' with triggerEnabled := false } h.settled.frozenRows hfrozen
  obtain ⟨v₄, h₄⟩ := backfillTarget_settled documentWebpages_lawful h.settled.webpageRows hpages
  have hback : backfillFrozen cipher true s' = .ok ⟨s', 0, 0, v₃⟩ := by
    unfold backfillFrozen
    rw [h₃, htrigger]
    change Except.ok (⟨⟨s'.db, true⟩, 0, 0, v₃⟩ : Progress) = _
    rw [← htrigger]
  refine ⟨_, bind_eq_ok.mpr ⟨_, h₁, bind_eq_ok.mpr ⟨_, h₂, bind_eq_ok.mpr ⟨_, hback,
    bind_eq_ok.mpr ⟨_, h₄, rfl⟩⟩⟩⟩⟩

end Backfill

/-- A completed backfill has visited every row of the four tables once, has kept what each
column stands for and has left nothing legacy; a further backfill completes, and none converts
anything. -/
theorem backfill_keeps (cipher : PrivateDataCipher) (hcipher : Dependable cipher)
    (s s' : Session) (reports : List Report)
    (hhash : ∀ page ∈ s.db.webpages.rows, page.contentHash ≠ some "")
    (h : backfill cipher true s = .ok (reports, s')) :
    Backfilled cipher s s' reports ∧
      (∃ reports', backfill cipher true s' = .ok (reports', s')) ∧
      ∀ cipher' reports' s'', backfill cipher' true s' = .ok (reports', s'') →
        s'' = s' ∧ ∀ r ∈ reports', r.converted = 0 := by
  have hdone := backfill_backfilled hcipher hhash h
  have htrigger : s'.triggerEnabled = true := by
    obtain ⟨p₁, p₂, p₃, p₄, -, -, h₃, h₄, -, rfl⟩ := backfill_ok h
    obtain ⟨-, q, rfl, -⟩ := backfillFrozen_ok h₃
    have hleft := backfillTarget_left documentWebpages_lawful _ updateWebpage_left h₄
    simp only [untouched, Prod.mk.injEq] at hleft
    exact hleft.2.2.2.2.2.2
  refine ⟨hdone, backfill_completes hcipher hdone htrigger, ?_⟩
  intro cipher' reports' s'' hagain
  exact backfill_of_settled hdone.settled hagain

/-! A database with a webpage: its name, URL, frozen text and digest are plain, its content is
encrypted. -/

theorem clearCipher_dependable : Dependable clearCipher where
  decrypt_encrypt := fun h => clearCipher_available (clearCipher_uses.encrypt_opens h)
  encrypt_prefix := fun h => clearCipher_uses.encrypt_prefix h
  lookup_prefix := by
    intro value binding fingerprint h
    cases h
    have hvault : "vault:".toList = ['v', 'a', 'u', 'l', 't', ':'] := String.toList_ofList
    have hversion : "vault:v1:".toList = ['v', 'a', 'u', 'l', 't', ':', 'v', '1', ':'] :=
      String.toList_ofList
    unfold startsWith
    rw [String.toList_append, hvault, hversion]
    rfl

/-- A document whose name is legacy. -/
def mixedDocument : Document := { (default : Document) with id := 1, userId := 2, name := "plain" }

/-- Its webpage, with an encrypted content among legacy columns. -/
def mixedPage : DocumentWebpage :=
  { (default : DocumentWebpage) with
    documentId := 1
    urls := ["u"]
    content := String.ofList
      (clearTag ⟨Uuid.str 2, Uuid.str 1, "webpage:content"⟩ ++ ['s', 'o', 'k'])
    contentHash := some "d" }

/-- A frozen chunk with legacy texts. -/
def mixedFrozen : KnowledgeRevisionChunk :=
  { (default : KnowledgeRevisionChunk) with
    id := 4
    revisionId := 3
    sourceDocumentId := 1
    documentName := ""
    text := "frozen"
    metadata := .obj [] }

/-- A session over a database with these rows. -/
def mixedSession : Session where
  db := {
    documents := ⟨[mixedDocument], by decide⟩
    chunks := .empty
    webpages := ⟨[mixedPage], List.nodup_singleton _⟩
    revisions := ⟨[⟨3, 2, 0⟩], by decide⟩
    revisionChunks := ⟨[mixedFrozen], List.nodup_singleton _⟩
    revisionWebpages := .empty
    erasedOwners := []
    chunks_fk := by simp
    webpages_fk := by simp [mixedDocument, mixedPage]
    revisionChunks_fk := by simp [mixedFrozen]
    revisionWebpages_fk := by simp }
  triggerEnabled := true

/-- The backfill of this database completes, with the conclusion of `backfill_keeps`. -/
theorem backfill_keeps_mixed :
    ∃ reports s', backfill clearCipher true mixedSession = .ok (reports, s') ∧
      Backfilled clearCipher mixedSession s' reports := by
  have hcompletes : (backfill clearCipher true mixedSession).toBool = true := by decide +kernel
  cases hrun : backfill clearCipher true mixedSession with
  | error e =>
      rw [hrun] at hcompletes
      cases hcompletes
  | ok outcome =>
      obtain ⟨reports, s'⟩ := outcome
      have hhash : ∀ page ∈ mixedSession.db.webpages.rows, page.contentHash ≠ some "" := by
        simp [mixedSession, mixedPage]
      have hkeeps := backfill_keeps clearCipher clearCipher_dependable mixedSession s' reports
        hhash hrun
      exact ⟨reports, s', rfl, hkeeps.1⟩

end PortRag.Maintenance
