import PortRag.Maintenance.Completion
import PortRag.Security.Cells
import PortRag.Security.OpenBao

set_option autoImplicit false

/-!
# Legacy plaintext

A database written before encryption: its private columns hold the texts of the users.
`encrypted` tells them from ciphertext by their first characters, and the backfill converts
them under the limits of the cipher and the fence of the erased owners.  The theorem says for
which databases that is enough.
-/

namespace PortRag.Maintenance

open PortRag.Foundation PortRag.Db PortRag.Security PortRag.Http PortRag.Ingest PortRag.Knowledge
  PortRag.Webpages

/-! ## The texts of a database -/

/-- The texts of a document in private columns. -/
def documentTexts (d : Document) : List String := d.name :: d.error.toList

/-- Those of a frozen chunk. -/
def frozenTexts (c : KnowledgeRevisionChunk) : List String := [c.documentName, c.text]

/-- Those of a webpage row. -/
def webpageTexts (p : DocumentWebpage) : List String := p.content :: p.urls ++ p.syncError.toList

/-- The texts of the users in the private columns. -/
def storedTexts (db : Database) : List String :=
  db.documents.rows.flatMap documentTexts ++ db.chunks.rows.map DocumentChunk.text ++
    db.revisionChunks.rows.flatMap frozenTexts ++ db.webpages.rows.flatMap webpageTexts

/-- `json.dumps` of the value succeeds, and its text is within the limit of the cipher. -/
def Fits (dumps : Json → Except Exc Bytes) (value : Json) : Prop :=
  ∃ raw, dumps value = .ok raw ∧ raw.length ≤ maxValue

/-- `hashlib.sha256(…).hexdigest()`. -/
def IsDigest (digest : String) : Prop :=
  digest.length = 64 ∧ ∀ c ∈ digest.toList, c ∈ "0123456789abcdef".toList

/-- The cipher answers: for every cell of the database it encrypts what is within its limit, and
it looks up digests.  A fingerprint is `vault:v1:` with the Base64 of 32 bytes, and no ciphertext
is its own plaintext. -/
structure Serving (dumps : Json → Except Exc Bytes) (cipher : PrivateDataCipher) : Prop
    extends Dependable cipher where
  encrypt_ok_iff : ∀ {cell : Security.Cell} {value : Json}, cell.InDatabase →
    ((∃ ciphertext, cipher.encrypt value cell.binding = .ok ciphertext) ↔ Fits dumps value)
  lookup_ok : ∀ {owner documentId : Uuid} {digest : String}, IsDigest digest → ∃ fingerprint,
    cipher.lookup digest (Security.Cell.document owner documentId .fingerprint).binding =
      .ok fingerprint ∧ fingerprint.length = 53
  decrypt_ne : ∀ {ciphertext binding}, cipher.decrypt ciphertext binding ≠ .ok (.str ciphertext)

/-- What the columns that hold no text of a user are in a database written before encryption:
metadata are the parsers' and hashes are digests.  Chunk numbers are 32-bit integers, and a
webpage has at most 100 URLs. -/
structure LegacyRows (dumps : Json → Except Exc Bytes) (db : Database) : Prop where
  chunks : ∀ c ∈ db.chunks.rows, isEnvelope c.metadata = false ∧ Fits dumps c.metadata ∧
    -2 ^ 31 ≤ c.seq ∧ c.seq < 2 ^ 31
  revisionChunks : ∀ c ∈ db.revisionChunks.rows, isEnvelope c.metadata = false ∧
    Fits dumps c.metadata ∧ -2 ^ 31 ≤ c.seq ∧ c.seq < 2 ^ 31
  webpages : ∀ p ∈ db.webpages.rows, p.urls.length ≤ 100 ∧ ∀ digest ∈ p.contentHash, IsDigest digest

/-- No text of a user is mistaken for ciphertext: the readers return it as it is, and the
backfill completes and encrypts it. -/
structure NeverMistaken (cipher : PrivateDataCipher) (db : Database) : Prop where
  reads : ∀ value ∈ storedTexts db, ∀ binding, cipher.privateData.readText value binding = .ok value
  completes : ∃ reports s', backfill cipher true ⟨db, true⟩ = .ok (reports, s') ∧
    Backfilled cipher ⟨db, true⟩ s' reports

/-! ## Columns that convert -/

section Columns

variable {dumps : Json → Except Exc Bytes} {cipher : PrivateDataCipher}

/-- A digest is not taken for a fingerprint. -/
theorem IsDigest.plain {digest : String} (h : IsDigest digest) :
    digest ≠ "" ∧ encrypted digest = false := by
  obtain ⟨hlength, hhex⟩ := h
  have hhead : ∀ start : String, start.toList.head?.all (· ∉ "0123456789abcdef".toList) = true →
      start ≠ "" → startsWith digest start = false := by
    intro start hstart hne
    rw [Bool.eq_false_iff]
    intro hprefix
    have hpre : start.toList <+: digest.toList := List.isPrefixOf_iff_prefix.mp hprefix
    cases hchars : start.toList with
    | nil => exact hne (String.toList_eq_nil_iff.mp hchars)
    | cons c rest =>
        rw [hchars] at hstart hpre
        have hmem := hhex c (hpre.subset List.mem_cons_self)
        simp only [List.head?_cons, Option.all_some, decide_eq_true_eq] at hstart
        exact hstart hmem
  refine ⟨?_, ?_⟩
  · rintro rfl
    cases hlength
  · unfold encrypted hasCipherPrefix
    rw [hhead "vault:" (by decide) (by decide), hhead largePrefix (by decide) (by decide)]
    rfl

/-- A text that is not taken for ciphertext converts exactly when it is within the limit. -/
theorem convertText_ok_iff (hserving : Serving dumps cipher) (cell : Security.Cell)
    (hcell : cell.InDatabase)
    {value : String} (hplain : encrypted value = false) :
    (∃ after, convertText cipher value cell.binding = .ok after) ↔ Fits dumps (.str value) := by
  rw [← hserving.encrypt_ok_iff hcell]
  unfold convertText
  rw [hplain, if_neg Bool.false_ne_true]
  rfl

theorem convertOptional_ok_iff (hserving : Serving dumps cipher) (cell : Security.Cell)
    (hcell : cell.InDatabase) {value : Option String}
    (hplain : ∀ text ∈ value, encrypted text = false) :
    (∃ after, convertOptional cipher value cell.binding = .ok after) ↔
      ∀ text ∈ value, Fits dumps (.str text) := by
  cases value with
  | none =>
      refine iff_of_true ⟨none, rfl⟩ ?_
      rintro _ ⟨⟩
  | some text =>
      have htext := convertText_ok_iff hserving cell hcell (hplain text rfl)
      constructor
      · rintro ⟨after, hafter⟩ _ ⟨⟩
        obtain ⟨text', htext', -⟩ := map_eq_ok.mp hafter
        exact htext.mp ⟨text', htext'⟩
      · intro hfits
        obtain ⟨after, hafter⟩ := htext.mpr (hfits text rfl)
        exact ⟨some after, map_eq_ok.mpr ⟨after, hafter, rfl⟩⟩

/-- Metadata of a legacy row convert. -/
theorem convertMetadata_ok (hserving : Serving dumps cipher) (cell : Security.Cell)
    (hcell : cell.InDatabase) {value : Json} (hplain : isEnvelope value = false)
    (hfits : Fits dumps value) : ∃ after, convertMetadata cipher value cell.binding = .ok after := by
  obtain ⟨ciphertext, hciphertext⟩ := (hserving.encrypt_ok_iff hcell).mpr hfits
  unfold convertMetadata
  rw [hplain, if_neg Bool.false_ne_true]
  change ∃ after, Security.encryptJson cipher value cell.binding = .ok after
  unfold Security.encryptJson
  rw [hciphertext]
  exact ⟨_, rfl⟩

theorem convertUrls_ok_iff (hserving : Serving dumps cipher) {owner documentId : Uuid}
    {urls : List String} (hlength : urls.length ≤ 100) (hplain : ∀ url ∈ urls, encrypted url = false) :
    (∃ after, convertUrls cipher owner.str documentId.str urls = .ok after) ↔
      ∀ url ∈ urls, Fits dumps (.str url) := by
  have hurl : ∀ u ∈ urls.zipIdx, (∃ after, convertText cipher u.1
      ⟨owner.str, documentId.str, urlField u.2⟩ = .ok after) ↔ Fits dumps (.str u.1) := by
    intro u hu
    have hindex : u.2 < urls.length := List.snd_lt_of_mem_zipIdx hu
    have hcell : (Security.Cell.document owner documentId (.url u.2)).InDatabase := by
      change u.2 < 2 ^ 63
      omega
    exact convertText_ok_iff hserving _ hcell (hplain u.1 (List.fst_mem_of_mem_zipIdx hu))
  constructor
  · rintro ⟨after, hafter⟩ url hmem
    obtain ⟨u, hu, rfl⟩ : ∃ u ∈ urls.zipIdx, u.1 = url := by
      have hfst := List.zipIdx_map_fst 0 urls
      rw [← hfst] at hmem
      exact List.mem_map.mp hmem
    obtain ⟨text, -, htext⟩ := Forall₂.exists_left (mapM_eq_ok.mp hafter).flip u hu
    exact (hurl u hu).mp ⟨text, htext⟩
  · intro hfits
    exact exists_mapM_ok (fun u hu => (hurl u hu).mpr (hfits u.1 (List.fst_mem_of_mem_zipIdx hu)))

end Columns

/-! ## Rows that convert -/

section Rows

variable {dumps : Json → Except Exc Bytes} {cipher : PrivateDataCipher}

theorem convertDocument_ok_iff (hserving : Serving dumps cipher) {row : Document} {owner : Uuid}
    (hplain : ∀ text ∈ documentTexts row, encrypted text = false) :
    (∃ values, convertDocument cipher row owner = .ok values) ↔
      ∀ text ∈ documentTexts row, Fits dumps (.str text) := by
  simp only [documentTexts, List.forall_mem_cons, Option.mem_toList] at hplain ⊢
  have hname := convertText_ok_iff hserving (.document owner row.id .name) trivial hplain.1
  have herror := convertOptional_ok_iff hserving (.document owner row.id .error) trivial
    hplain.2
  constructor
  · rintro ⟨values, h⟩
    obtain ⟨name, hafter, h⟩ := bind_eq_ok.mp h
    obtain ⟨error, hafter', -⟩ := bind_eq_ok.mp h
    exact ⟨hname.mp ⟨name, hafter⟩, herror.mp ⟨error, hafter'⟩⟩
  · rintro ⟨hfits, hfits'⟩
    obtain ⟨name, hafter⟩ := hname.mpr hfits
    obtain ⟨error, hafter'⟩ := herror.mpr hfits'
    exact ⟨⟨name, error⟩, bind_eq_ok.mpr ⟨name, hafter, bind_eq_ok.mpr ⟨error, hafter', rfl⟩⟩⟩

theorem convertChunk_ok_iff (hserving : Serving dumps cipher) {row : DocumentChunk} {owner : Uuid}
    (hrow : isEnvelope row.metadata = false ∧ Fits dumps row.metadata ∧
      -2 ^ 31 ≤ row.seq ∧ row.seq < 2 ^ 31) (hplain : encrypted row.text = false) :
    (∃ values, convertChunk cipher row owner = .ok values) ↔ Fits dumps (.str row.text) := by
  obtain ⟨henvelope, hfits, hseq⟩ := hrow
  have htext := convertText_ok_iff hserving
    (.document owner row.documentId (.chunkText row.seq)) hseq hplain
  obtain ⟨metadata, hmetadata⟩ := convertMetadata_ok hserving
    (.document owner row.documentId (.chunkMetadata row.seq)) hseq henvelope hfits
  constructor
  · rintro ⟨values, h⟩
    obtain ⟨text, hafter, -⟩ := bind_eq_ok.mp h
    exact htext.mp ⟨text, hafter⟩
  · intro htextFits
    obtain ⟨text, hafter⟩ := htext.mpr htextFits
    exact ⟨⟨text, metadata⟩, bind_eq_ok.mpr ⟨text, hafter, bind_eq_ok.mpr ⟨metadata, hmetadata, rfl⟩⟩⟩

theorem convertFrozen_ok_iff (hserving : Serving dumps cipher) {row : KnowledgeRevisionChunk}
    {owner : Uuid} (hrow : isEnvelope row.metadata = false ∧ Fits dumps row.metadata ∧
      -2 ^ 31 ≤ row.seq ∧ row.seq < 2 ^ 31)
    (hplain : ∀ text ∈ frozenTexts row, encrypted text = false) :
    (∃ values, convertFrozen cipher row owner = .ok values) ↔
      ∀ text ∈ frozenTexts row, Fits dumps (.str text) := by
  obtain ⟨henvelope, hfits, hseq⟩ := hrow
  simp only [frozenTexts, List.forall_mem_cons, List.not_mem_nil, false_imp_iff, implies_true,
    and_true] at hplain ⊢
  let cell := Security.Cell.frozen owner row.revisionId row.sourceDocumentId
  have hname := convertText_ok_iff hserving (cell .name) trivial hplain.1
  have htext := convertText_ok_iff hserving (cell (.text row.seq)) hseq hplain.2
  obtain ⟨metadata, hmetadata⟩ := convertMetadata_ok hserving (cell (.metadata row.seq))
    hseq henvelope hfits
  constructor
  · rintro ⟨values, h⟩
    obtain ⟨name, hafter, h⟩ := bind_eq_ok.mp h
    obtain ⟨text, hafter', -⟩ := bind_eq_ok.mp h
    exact ⟨hname.mp ⟨name, hafter⟩, htext.mp ⟨text, hafter'⟩⟩
  · rintro ⟨hnameFits, htextFits⟩
    obtain ⟨name, hafter⟩ := hname.mpr hnameFits
    obtain ⟨text, hafter'⟩ := htext.mpr htextFits
    exact ⟨⟨name, text, metadata⟩, bind_eq_ok.mpr ⟨name, hafter, bind_eq_ok.mpr ⟨text, hafter',
      bind_eq_ok.mpr ⟨metadata, hmetadata, rfl⟩⟩⟩⟩

/-- The hash of a legacy row becomes a fingerprint that its column holds. -/
theorem convertHash_ok (hserving : Serving dumps cipher) {value : Option String}
    (hdigest : ∀ digest ∈ value, IsDigest digest) (owner documentId : Uuid) :
    ∃ after, convertHash cipher value
        (Security.Cell.document owner documentId .fingerprint).binding = .ok after ∧
      after.any (fun h => 64 < h.length) = false := by
  cases value with
  | none => exact ⟨none, rfl, rfl⟩
  | some digest =>
      have hvalid := hdigest digest rfl
      obtain ⟨hne, hplain⟩ := hvalid.plain
      obtain ⟨fingerprint, hfingerprint, hlength⟩ := @hserving.lookup_ok owner documentId _ hvalid
      refine ⟨some fingerprint, ?_, ?_⟩
      · unfold convertHash
        dsimp only
        rw [if_pos ⟨hne, by rw [hplain]; exact Bool.false_ne_true⟩, hfingerprint]
        rfl
      · rw [Option.any_some, hlength]
        decide

theorem convertWebpage_ok_iff (hserving : Serving dumps cipher) {row : DocumentWebpage} {owner : Uuid}
    (hrow : row.urls.length ≤ 100 ∧ ∀ digest ∈ row.contentHash, IsDigest digest)
    (hplain : ∀ text ∈ webpageTexts row, encrypted text = false) :
    (∃ values, convertWebpage cipher row owner = .ok values) ↔
      ∀ text ∈ webpageTexts row, Fits dumps (.str text) := by
  simp only [webpageTexts, List.forall_mem_cons, List.forall_mem_append, List.cons_append,
    Option.mem_toList] at hplain ⊢
  obtain ⟨hcontent, hurls, herror⟩ := hplain
  have hcontentOk := convertText_ok_iff hserving (.document owner row.documentId .content) trivial
    hcontent
  have hurlsOk := @convertUrls_ok_iff _ _ hserving owner row.documentId _ hrow.1 hurls
  have herrorOk := convertOptional_ok_iff hserving (.document owner row.documentId .syncError)
    trivial herror
  obtain ⟨hash, hhash, -⟩ := convertHash_ok hserving hrow.2 owner row.documentId
  constructor
  · rintro ⟨values, h⟩
    obtain ⟨urls, hafter, h⟩ := bind_eq_ok.mp h
    obtain ⟨content, hafter', h⟩ := bind_eq_ok.mp h
    obtain ⟨error, hafter'', -⟩ := bind_eq_ok.mp h
    exact ⟨hcontentOk.mp ⟨content, hafter'⟩, hurlsOk.mp ⟨urls, hafter⟩,
      herrorOk.mp ⟨error, hafter''⟩⟩
  · rintro ⟨hcontentFits, hurlsFit, herrorFits⟩
    obtain ⟨urls, hafter⟩ := hurlsOk.mpr hurlsFit
    obtain ⟨content, hafter'⟩ := hcontentOk.mpr hcontentFits
    obtain ⟨error, hafter''⟩ := herrorOk.mpr herrorFits
    exact ⟨⟨urls, content, error, hash⟩, bind_eq_ok.mpr ⟨urls, hafter, bind_eq_ok.mpr
      ⟨content, hafter', bind_eq_ok.mpr ⟨error, hafter'', bind_eq_ok.mpr ⟨hash, hhash, rfl⟩⟩⟩⟩⟩

/-- The converted hash of a legacy row is within the length of its column. -/
theorem convertWebpage_hash (hserving : Serving dumps cipher) {row : DocumentWebpage} {owner : Uuid}
    (hdigest : ∀ digest ∈ row.contentHash, IsDigest digest) {values : WebpageColumns}
    (h : convertWebpage cipher row owner = .ok values) :
    values.contentHash.any (fun h => 64 < h.length) = false := by
  obtain ⟨hash, hhash, hlength⟩ := convertHash_ok hserving hdigest owner row.documentId
  obtain ⟨urls, -, h⟩ := bind_eq_ok.mp h
  obtain ⟨content, -, h⟩ := bind_eq_ok.mp h
  obtain ⟨error, -, h⟩ := bind_eq_ok.mp h
  obtain ⟨hash', hhash', h⟩ := bind_eq_ok.mp h
  cases h
  obtain rfl : hash = hash' := Except.ok.inj (hhash.symm.trans hhash')
  exact hlength

end Rows

/-! ## Loops that complete -/

section Loop

variable {ρ α β : Type} {T : Target ρ α} {cipher : PrivateDataCipher}

/-- A loop whose rows convert, and whose updates succeed as long as what they leave alone is as
it was, completes. -/
theorem visits_complete {page : List (ρ × Uuid)} {p : Progress} (left : Session → β)
    (hleft : ∀ {s id values s'}, T.update s id values = .ok s' → left s' = left s)
    (hconvert : ∀ x ∈ page, ∃ values, T.convert cipher x.1 x.2 = .ok values)
    (hupdate : ∀ x ∈ page, ∀ s values, left s = left p.session →
      T.convert cipher x.1 x.2 = .ok values → ∃ s', T.update s (T.rowKey x) values = .ok s') :
    ∃ p', page.foldlM (visitRow T cipher true) p = .ok p' := by
  induction page generalizing p with
  | nil => exact ⟨p, rfl⟩
  | cons x rest ih =>
      obtain ⟨values, hvalues⟩ := hconvert x List.mem_cons_self
      obtain ⟨s', hs'⟩ := hupdate x List.mem_cons_self p.session values rfl hvalues
      change T.update p.session (T.key x.1) values = .ok s' at hs'
      obtain ⟨mid, hmid⟩ : ∃ mid, visitRow T cipher true p x = .ok mid := by
        unfold visitRow
        simp only [hvalues, Bool.not_true, Bool.false_eq_true, ↓reduceIte]
        cases T.legacy x.1 with
        | false => exact ⟨_, rfl⟩
        | true => exact ⟨_, bind_eq_ok.mpr ⟨values, rfl, bind_eq_ok.mpr ⟨s', hs', rfl⟩⟩⟩
      have hsame : left mid.session = left p.session := by
        obtain ⟨-, values', -, hsession⟩ := visitRow_ok hmid
        split at hsession
        · exact hleft hsession
        · rw [hsession]
      obtain ⟨p', hp'⟩ := @ih mid (fun y hy => hconvert y (List.mem_cons_of_mem _ hy))
        (fun y hy s values hs => hupdate y (List.mem_cons_of_mem _ hy) s values (hs.trans hsame))
      exact ⟨p', bind_eq_ok.mpr ⟨mid, hmid, hp'⟩⟩

/-- Each legacy row of a completed loop was updated in a session in which what the updates leave
alone was as at the start. -/
theorem visits_updated {page : List (ρ × Uuid)} {p p' : Progress} (left : Session → β)
    (hleft : ∀ {s id values s'}, T.update s id values = .ok s' → left s' = left s)
    (h : page.foldlM (visitRow T cipher true) p = .ok p') {x : ρ × Uuid} (hx : x ∈ page)
    (hlegacy : T.legacy x.1 = true) :
    ∃ s values s', left s = left p.session ∧ T.update s (T.rowKey x) values = .ok s' := by
  induction page generalizing p with
  | nil => cases hx
  | cons y rest ih =>
      obtain ⟨mid, hmid, h⟩ := bind_eq_ok.mp h
      obtain ⟨-, values, -, hsession⟩ := visitRow_ok hmid
      rcases List.mem_cons.mp hx with rfl | hx
      · rw [if_pos hlegacy] at hsession
        exact ⟨p.session, values, mid.session, rfl, hsession⟩
      · have hsame : left mid.session = left p.session := by
          split at hsession
          · exact hleft hsession
          · rw [hsession]
        obtain ⟨s, values', s', hs, hupdate⟩ := ih h hx
        exact ⟨s, values', s', hs.trans hsame, hupdate⟩

theorem backfillTarget_complete (hT : T.Lawful) {s : Session} (left : Session → β)
    (hleft : ∀ {s id values s'}, T.update s id values = .ok s' → left s' = left s)
    (hconvert : ∀ x ∈ T.rows s.db, ∃ values, T.convert cipher x.1 x.2 = .ok values)
    (hupdate : ∀ x ∈ T.rows s.db, ∀ s₁ values, left s₁ = left s →
      T.convert cipher x.1 x.2 = .ok values → ∃ s', T.update s₁ (T.rowKey x) values = .ok s') :
    ∃ p, backfillTarget T cipher true s = .ok p := by
  rw [backfillTarget_eq hT]
  exact visits_complete left hleft (fun x hx => hconvert x (mem_inOrder_none.mp hx))
    (fun x hx => hupdate x (mem_inOrder_none.mp hx))

end Loop

/-! ## What later targets read -/

/-- No document belongs to an erased owner. -/
def Unfenced (s : Session) : Prop :=
  ∀ id owner, ownerOf s.db id = some owner → owner ∉ s.db.erasedOwners

/-- What the targets behind the frozen chunks read: the webpages with their owners, the owners of
the documents and the fences. -/
def afterFrozen (s : Session) := (webpageOwners s.db, ownerOf s.db, s.db.erasedOwners)

/-- What the targets behind the chunks read. -/
def afterChunks (s : Session) := (frozenOwners s.db, s.triggerEnabled, afterFrozen s)

/-- What the targets behind the documents read. -/
def afterDocuments (s : Session) := (chunkOwners s.db, afterChunks s)

theorem updateDocument_after {s s' : Session} {id : Uuid} {values : DocumentColumns}
    (h : updateDocument s id values = .ok s') : afterDocuments s' = afterDocuments s := by
  have hleft := updateDocument_left h
  simp only [untouched, Prod.mk.injEq] at hleft
  obtain ⟨hchunks, hfrozen, hpages, howners, hrevisions, -, herased, htrigger⟩ := hleft
  have hrevisionOwners : revisionOwnerOf s'.db = revisionOwnerOf s.db := by
    funext other
    rw [revisionOwnerOf, hrevisions, revisionOwnerOf]
  simp only [afterDocuments, afterChunks, afterFrozen, chunkOwners_eq, frozenOwners_eq,
    webpageOwners_eq, hchunks, hfrozen, hpages, howners, hrevisionOwners, herased, htrigger]

theorem updateChunk_after {s s' : Session} {id : Uuid} {values : ChunkColumns}
    (h : updateChunk s id values = .ok s') : afterChunks s' = afterChunks s := by
  have hleft := updateChunk_left h
  simp only [untouched, Prod.mk.injEq] at hleft
  obtain ⟨hdocuments, hfrozen, hpages, hrevisions, -, herased, htrigger⟩ := hleft
  have howners : ownerOf s'.db = ownerOf s.db := by
    funext other
    rw [ownerOf, Database.document?, hdocuments, ownerOf, Database.document?]
  have hrevisionOwners : revisionOwnerOf s'.db = revisionOwnerOf s.db := by
    funext other
    rw [revisionOwnerOf, hrevisions, revisionOwnerOf]
  simp only [afterChunks, afterFrozen, frozenOwners_eq, webpageOwners_eq, hfrozen, hpages, howners,
    hrevisionOwners, herased, htrigger]

theorem updateFrozen_after {s s' : Session} {id : Uuid} {values : FrozenColumns}
    (h : updateFrozen s id values = .ok s') :
    (s'.triggerEnabled, afterFrozen s') = (s.triggerEnabled, afterFrozen s) := by
  have hleft := updateFrozen_left h
  simp only [untouched, Prod.mk.injEq] at hleft
  obtain ⟨hdocuments, -, hpages, -, -, herased, htrigger⟩ := hleft
  have howners : ownerOf s'.db = ownerOf s.db := by
    funext other
    rw [ownerOf, Database.document?, hdocuments, ownerOf, Database.document?]
  simp only [afterFrozen, webpageOwners_eq, hpages, howners, herased, htrigger]

theorem updateWebpage_after {s s' : Session} {id : Uuid} {values : WebpageColumns}
    (h : updateWebpage s id values = .ok s') :
    (ownerOf s'.db, s'.db.erasedOwners) = (ownerOf s.db, s.db.erasedOwners) := by
  have hleft := updateWebpage_left h
  simp only [untouched, Prod.mk.injEq] at hleft
  obtain ⟨hdocuments, -, -, -, -, herased, -⟩ := hleft
  have howners : ownerOf s'.db = ownerOf s.db := by
    funext other
    rw [ownerOf, Database.document?, hdocuments, ownerOf, Database.document?]
  rw [howners, herased]

/-! ## Updates that succeed -/

theorem Unfenced.congr {s s' : Session} (h : Unfenced s)
    (hsame : (ownerOf s'.db, s'.db.erasedOwners) = (ownerOf s.db, s.db.erasedOwners)) :
    Unfenced s' := by
  obtain ⟨howners, herased⟩ := Prod.mk.inj hsame
  intro id owner howner
  rw [howners] at howner
  rw [herased]
  exact h id owner howner

theorem assertOwnerActive_ok {db : Database} {userId : Uuid} (h : assertOwnerActive db userId = .ok ()) :
    userId ∉ db.erasedOwners := by
  unfold assertOwnerActive at h
  split at h
  · cases h
  · assumption

theorem Unfenced.admits {s : Session} (h : Unfenced s) {id : Uuid}
    (hsome : (ownerOf s.db id).isSome = true) : admitDocument s.db id = .ok () := by
  obtain ⟨owner, howner⟩ := Option.isSome_iff_exists.mp hsome
  obtain ⟨document, hdocument, rfl⟩ := Option.map_eq_some_iff.mp howner
  unfold admitDocument
  rw [hdocument]
  exact if_neg (h id _ howner)

theorem Unfenced.updateDocument {s : Session} (h : Unfenced s) (id : Uuid)
    (values : DocumentColumns) : ∃ s', updateDocument s id values = .ok s' := by
  unfold Maintenance.updateDocument
  cases hrow : s.db.document? id with
  | none => exact ⟨s, rfl⟩
  | some row =>
      have hadmits : assertOwnerActive s.db row.userId = .ok () := by
        refine if_neg (h id _ ?_)
        rw [ownerOf, hrow, Option.map_some]
      exact ⟨_, bind_eq_ok.mpr ⟨(), hadmits, rfl⟩⟩

theorem Unfenced.updateChunk {s : Session} (h : Unfenced s) (id : Uuid) (values : ChunkColumns) :
    ∃ s', updateChunk s id values = .ok s' := by
  unfold Maintenance.updateChunk
  split
  · exact ⟨s, rfl⟩
  · next row hrow =>
      have hmem := (Table.find?_eq_some_iff.mp hrow).1
      exact ⟨_, bind_eq_ok.mpr ⟨(), h.admits (isSome_ownerOf_chunk s.db row hmem), rfl⟩⟩

theorem Unfenced.updateWebpage {s : Session} (h : Unfenced s) (id : Uuid) {values : WebpageColumns}
    (hhash : values.contentHash.any (fun h => 64 < h.length) = false) :
    ∃ s', updateWebpage s id values = .ok s' := by
  unfold Maintenance.updateWebpage
  split
  · exact ⟨s, rfl⟩
  · next row hrow =>
      have hmem := (Database.webpage?_eq_some_iff.mp hrow).1
      have hadmits := h.admits (isSome_ownerOf_webpage s.db row hmem)
      rw [hhash, if_neg Bool.false_ne_true]
      exact ⟨_, bind_eq_ok.mpr ⟨(), hadmits, rfl⟩⟩

/-! ## The whole backfill -/

/-- The rows of all four targets convert. -/
structure Convertible (cipher : PrivateDataCipher) (db : Database) : Prop where
  documents : ∀ x ∈ Maintenance.documents.rows db,
    ∃ values, Maintenance.documents.convert cipher x.1 x.2 = .ok values
  chunks : ∀ x ∈ chunkOwners db, ∃ values, Maintenance.chunks.convert cipher x.1 x.2 = .ok values
  revisionChunks : ∀ x ∈ frozenOwners db,
    ∃ values, Maintenance.revisionChunks.convert cipher x.1 x.2 = .ok values
  webpages : ∀ x ∈ webpageOwners db, ∃ values, documentWebpages.convert cipher x.1 x.2 = .ok values

section Backfill

variable {dumps : Json → Except Exc Bytes} {cipher : PrivateDataCipher} {s : Session}

/-- A backfill whose rows convert and whose owners are active completes: nothing else in it can
raise. -/
theorem Convertible.backfill (hrows : Convertible cipher s.db) (htrigger : s.triggerEnabled = true)
    (hunfenced : Unfenced s)
    (hhash : ∀ x ∈ webpageOwners s.db, ∀ values, convertWebpage cipher x.1 x.2 = .ok values →
      values.contentHash.any (fun h => 64 < h.length) = false) :
    ∃ reports s', backfill cipher true s = .ok (reports, s') := by
  obtain ⟨p₁, h₁⟩ := backfillTarget_complete documents_lawful afterDocuments updateDocument_after
    hrows.documents (fun x _ s₁ values hs _ =>
      (hunfenced.congr (congrArg (fun a => a.2.2.2.2) hs)).updateDocument x.1.id values)
  have hafter₁ := backfillTarget_left documents_lawful afterDocuments updateDocument_after h₁
  simp only [afterDocuments, afterChunks, afterFrozen, Prod.mk.injEq] at hafter₁
  obtain ⟨hchunks₁, hfrozen₁, htrigger₁, hpages₁, hfence₁⟩ := hafter₁
  have hunfenced₁ : Unfenced p₁.session := hunfenced.congr (Prod.ext hfence₁.1 hfence₁.2)
  obtain ⟨p₂, h₂⟩ := @backfillTarget_complete _ _ _ _ cipher chunks_lawful p₁.session afterChunks
    updateChunk_after (by change ∀ x ∈ chunkOwners _, _; rw [hchunks₁]; exact hrows.chunks)
    (fun x _ s₁ values hs _ =>
      (hunfenced₁.congr (congrArg (fun a => a.2.2.2) hs)).updateChunk x.1.id values)
  have hafter₂ := backfillTarget_left chunks_lawful afterChunks updateChunk_after h₂
  simp only [afterChunks, afterFrozen, Prod.mk.injEq] at hafter₂
  obtain ⟨hfrozen₂, htrigger₂, hpages₂, hfence₂⟩ := hafter₂
  obtain ⟨q, hq⟩ := @backfillTarget_complete _ _ _ _ cipher revisionChunks_lawful
    { p₂.session with triggerEnabled := false } _ updateFrozen_after
    (by change ∀ x ∈ frozenOwners _, _; rw [hfrozen₂, hfrozen₁]; exact hrows.revisionChunks)
    (fun x _ s₁ values hs _ => by
      change ∃ s', updateFrozen s₁ x.1.id values = .ok s'
      have hoff : s₁.triggerEnabled = false := congrArg Prod.fst hs
      unfold updateFrozen
      rw [hoff, if_neg Bool.false_ne_true]
      exact ⟨_, rfl⟩)
  have hafter₃ := backfillTarget_left revisionChunks_lawful _ updateFrozen_after hq
  simp only [afterFrozen, Prod.mk.injEq] at hafter₃
  obtain ⟨-, hpages₃, hfence₃⟩ := hafter₃
  have h₃ : backfillFrozen cipher true p₂.session =
      .ok { q with session := { q.session with triggerEnabled := true } } := by
    unfold backfillFrozen
    rw [htrigger₂, htrigger₁, htrigger, hq]
    rfl
  have hunfenced₃ : Unfenced ⟨q.session.db, true⟩ := hunfenced₁.congr
    (Prod.ext (hfence₃.1.trans hfence₂.1) (hfence₃.2.trans hfence₂.2))
  have hpages : webpageOwners q.session.db = webpageOwners s.db :=
    hpages₃.trans (hpages₂.trans hpages₁)
  obtain ⟨p₄, h₄⟩ := @backfillTarget_complete _ _ _ _ cipher documentWebpages_lawful
    ⟨q.session.db, true⟩ _ updateWebpage_after
    (by change ∀ x ∈ webpageOwners _, _; rw [hpages]; exact hrows.webpages)
    (fun x hx s₁ values hs hvalues => by
      change x ∈ webpageOwners q.session.db at hx
      rw [hpages] at hx
      exact (hunfenced₃.congr hs).updateWebpage x.1.documentId (hhash x hx values hvalues))
  exact ⟨_, p₄.session, bind_eq_ok.mpr ⟨p₁, h₁, bind_eq_ok.mpr ⟨p₂, h₂, bind_eq_ok.mpr
    ⟨_, h₃, bind_eq_ok.mpr ⟨p₄, h₄, rfl⟩⟩⟩⟩⟩

/-- A completed backfill has converted the rows of all four targets. -/
theorem convertible_of_backfill {s' : Session} {reports : List Report}
    (h : Maintenance.backfill cipher true s = .ok (reports, s')) : Convertible cipher s.db := by
  obtain ⟨p₁, p₂, p₃, p₄, h₁, h₂, h₃, h₄, -, -⟩ := backfill_ok h
  obtain ⟨-, q, rfl, hq⟩ := backfillFrozen_ok h₃
  have hafter₁ := backfillTarget_left documents_lawful afterDocuments updateDocument_after h₁
  have hafter₂ := backfillTarget_left chunks_lawful afterChunks updateChunk_after h₂
  have hafter₃ := backfillTarget_left revisionChunks_lawful _ updateFrozen_after hq
  simp only [afterDocuments, afterChunks, afterFrozen, Prod.mk.injEq] at hafter₁ hafter₂ hafter₃
  obtain ⟨hchunks₁, hfrozen₁, -, hpages₁, -⟩ := hafter₁
  obtain ⟨hfrozen₂, -, hpages₂, -⟩ := hafter₂
  obtain ⟨-, hpages₃, -⟩ := hafter₃
  have hchunks := (backfillTarget_ok chunks_lawful h₂).2.1
  have hfrozen := (backfillTarget_ok revisionChunks_lawful hq).2.1
  have hpages := (backfillTarget_ok documentWebpages_lawful h₄).2.1
  refine ⟨(backfillTarget_ok documents_lawful h₁).2.1, ?_, ?_, ?_⟩
  · rw [← hchunks₁]
    exact hchunks
  · rw [← hfrozen₁, ← hfrozen₂]
    exact hfrozen
  · rw [← hpages₁, ← hpages₂, ← hpages₃]
    exact hpages

/-- A completed backfill of legacy documents has updated each of them, so their owners are
active. -/
theorem unfenced_of_backfill {s' : Session} {reports : List Report}
    (hdocuments : ∀ d ∈ s.db.documents.rows, Maintenance.documents.legacy d = true)
    (h : Maintenance.backfill cipher true s = .ok (reports, s')) :
    ∀ d ∈ s.db.documents.rows, d.userId ∉ s.db.erasedOwners := by
  intro d hd
  obtain ⟨p₁, -, -, -, h₁, -⟩ := backfill_ok h
  rw [backfillTarget_eq documents_lawful] at h₁
  have hx : (d, d.userId) ∈ Maintenance.documents.rows s.db := List.mem_map_of_mem hd
  obtain ⟨s₁, values, s₂, hs, hupdate⟩ := visits_updated afterDocuments updateDocument_after h₁
    (mem_inOrder_none.mpr hx) (hdocuments d hd)
  simp only [afterDocuments, afterChunks, afterFrozen, Prod.mk.injEq] at hs
  obtain ⟨-, -, -, -, howners, herased⟩ := hs
  change Maintenance.updateDocument s₁ d.id values = .ok s₂ at hupdate
  have howner : ownerOf s₁.db d.id = some d.userId := by
    rw [howners, ownerOf, Database.document?_eq_some_iff.mpr ⟨hd, rfl⟩, Option.map_some]
  unfold Maintenance.updateDocument at hupdate
  split at hupdate
  · next hnone =>
      rw [ownerOf, hnone] at howner
      cases howner
  · next row hrow =>
      obtain ⟨⟨⟩, hadmits, -⟩ := bind_eq_ok.mp hupdate
      rw [ownerOf, hrow] at howner
      have hsame : row.userId = d.userId := Option.some.inj howner
      rw [← hsame, ← herased]
      exact assertOwnerActive_ok hadmits

end Backfill

section Legacy

variable {dumps : Json → Except Exc Bytes} {cipher : PrivateDataCipher} {db : Database}

/-- The texts of a database, table by table. -/
theorem forall_storedTexts {P : String → Prop} : (∀ value ∈ storedTexts db, P value) ↔
    (∀ d ∈ db.documents.rows, ∀ text ∈ documentTexts d, P text) ∧
    (∀ c ∈ db.chunks.rows, P c.text) ∧
    (∀ c ∈ db.revisionChunks.rows, ∀ text ∈ frozenTexts c, P text) ∧
    ∀ p ∈ db.webpages.rows, ∀ text ∈ webpageTexts p, P text := by
  simp only [storedTexts, List.forall_mem_append, List.forall_mem_flatMap, List.forall_mem_map,
    and_assoc]

/-- A property of the rows of a table is one of the rows of its join. -/
theorem forall_withOwner {ρ : Type} {rows : List ρ} {owner : ρ → Option Uuid} {P : ρ → Prop}
    {Q : ρ × Uuid → Prop} (hrows : ∀ r ∈ rows, (owner r).isSome = true)
    (hPQ : ∀ r ∈ rows, ∀ o, Q (r, o) ↔ P r) :
    (∀ x ∈ withOwner rows owner, Q x) ↔ ∀ r ∈ rows, P r := by
  constructor
  · intro h r hr
    obtain ⟨o, ho⟩ := Option.isSome_iff_exists.mp (hrows r hr)
    refine (hPQ r hr o).mp (h (r, o) (List.mem_filterMap.mpr ⟨r, hr, ?_⟩))
    rw [ho, Option.map_some]
  · rintro h x hx
    obtain ⟨r, hr, hx⟩ := List.mem_filterMap.mp hx
    obtain ⟨o, -, rfl⟩ := Option.map_eq_some_iff.mp hx
    exact (hPQ r hr o).mpr (h r hr)

/-- The rows of a legacy database without texts that look like ciphertext convert exactly when
all texts are within the limit. -/
theorem convertible_iff (hserving : Serving dumps cipher) (hlegacy : LegacyRows dumps db)
    (hplain : ∀ value ∈ storedTexts db, encrypted value = false) :
    Convertible cipher db ↔ ∀ value ∈ storedTexts db, Fits dumps (.str value) := by
  rw [forall_storedTexts] at hplain ⊢
  obtain ⟨hdocuments, hchunks, hfrozen, hpages⟩ := hplain
  have hdocumentRows : (∀ x ∈ documentRows db, ∃ values,
      convertDocument cipher x.1 x.2 = .ok values) ↔
      ∀ d ∈ db.documents.rows, ∀ text ∈ documentTexts d, Fits dumps (.str text) := by
    unfold documentRows
    rw [List.forall_mem_map]
    exact forall₂_congr (fun d hd => convertDocument_ok_iff hserving (hdocuments d hd))
  have hchunkRows := @forall_withOwner _ _ _ (fun c => Fits dumps (.str c.text))
    (fun x => ∃ values, convertChunk cipher x.1 x.2 = .ok values) (isSome_ownerOf_chunk db)
    (fun c hc owner => @convertChunk_ok_iff _ _ hserving _ owner (hlegacy.chunks c hc) (hchunks c hc))
  have hfrozenRows := @forall_withOwner _ _ _ (fun c => ∀ text ∈ frozenTexts c, Fits dumps (.str text))
    (fun x => ∃ values, convertFrozen cipher x.1 x.2 = .ok values) (isSome_revisionOwnerOf db)
    (fun c hc owner => @convertFrozen_ok_iff _ _ hserving _ owner (hlegacy.revisionChunks c hc) (hfrozen c hc))
  have hpageRows := @forall_withOwner _ _ _ (fun p => ∀ text ∈ webpageTexts p, Fits dumps (.str text))
    (fun x => ∃ values, convertWebpage cipher x.1 x.2 = .ok values) (isSome_ownerOf_webpage db)
    (fun p hp owner => @convertWebpage_ok_iff _ _ hserving _ owner (hlegacy.webpages p hp) (hpages p hp))
  rw [← hdocumentRows, ← hchunkRows, ← hfrozenRows, ← hpageRows, ← chunkOwners_eq,
    ← frozenOwners_eq, ← webpageOwners_eq]
  exact ⟨fun h => ⟨h.documents, h.chunks, h.revisionChunks, h.webpages⟩,
    fun h => ⟨h.1, h.2.1, h.2.2.1, h.2.2.2⟩⟩

/-- A text that looks like ciphertext is not read as it is. -/
theorem encrypted_of_readText (hserving : Serving dumps cipher) {value : String}
    {binding : StorageBinding} (h : cipher.privateData.readText value binding = .ok value) :
    encrypted value = false := by
  by_contra hencrypted
  rw [Bool.not_eq_false, encrypted] at hencrypted
  change Security.readText cipher value binding = .ok value at h
  unfold Security.readText at h
  rw [if_pos hencrypted] at h
  split at h
  · cases h
  · next plain hplain =>
      cases h
      exact hserving.decrypt_ne hplain
  · cases h

end Legacy

/-- Over the legacy databases, no text is mistaken exactly when none starts like a ciphertext, all
are within the limit of the cipher and no document belongs to an erased owner.  A legacy text that
starts with the prefix of a ciphertext is decrypted by its reader and passed over by the backfill;
the other two conditions are those under which the backfill completes. -/
theorem never_mistaken_iff (dumps : Json → Except Exc Bytes) (cipher : PrivateDataCipher)
    (hserving : Serving dumps cipher) (db : Database) (hlegacy : LegacyRows dumps db) :
    NeverMistaken cipher db ↔
      (∀ value ∈ storedTexts db, encrypted value = false ∧ Fits dumps (.str value)) ∧
        ∀ d ∈ db.documents.rows, d.userId ∉ db.erasedOwners := by
  constructor
  · rintro ⟨hreads, reports, s', hbackfill, -⟩
    have hplain : ∀ value ∈ storedTexts db, encrypted value = false :=
      fun value hvalue => encrypted_of_readText hserving (hreads value hvalue default)
    have hfits := (convertible_iff hserving hlegacy hplain).mp (convertible_of_backfill hbackfill)
    refine ⟨fun value hvalue => ⟨hplain value hvalue, hfits value hvalue⟩, ?_⟩
    refine unfenced_of_backfill ?_ hbackfill
    intro d hd
    have hname := (forall_storedTexts.mp hplain).1 d hd d.name List.mem_cons_self
    change (!encrypted d.name || legacyText d.error) = true
    rw [hname]
    rfl
  · rintro ⟨htexts, hunfenced⟩
    have hplain : ∀ value ∈ storedTexts db, encrypted value = false :=
      fun value hvalue => (htexts value hvalue).1
    have hrows := (convertible_iff hserving hlegacy hplain).mpr
      (fun value hvalue => (htexts value hvalue).2)
    have hactive : Unfenced ⟨db, true⟩ := by
      intro id owner howner
      obtain ⟨d, hd, rfl⟩ := Option.map_eq_some_iff.mp howner
      exact hunfenced d (Database.document?_eq_some_iff.mp hd).1
    have hdigests : ∀ p ∈ db.webpages.rows, p.contentHash ≠ some "" := by
      intro p hp hempty
      exact ((hlegacy.webpages p hp).2 "" hempty).plain.1 rfl
    have hhash : ∀ x ∈ webpageOwners db, ∀ values, convertWebpage cipher x.1 x.2 = .ok values →
        values.contentHash.any (fun h => 64 < h.length) = false := by
      rw [webpageOwners_eq]
      intro x hx values hvalues
      exact convertWebpage_hash hserving
        (hlegacy.webpages x.1 (fst_mem_of_withOwner hx)).2 hvalues
    obtain ⟨reports, s', hbackfill⟩ :=
      @Convertible.backfill cipher ⟨db, true⟩ hrows rfl hactive hhash
    refine ⟨?_, reports, s', hbackfill, ?_⟩
    · intro value hvalue binding
      exact readText_of_plain (by rw [hplain value hvalue]; exact Bool.false_ne_true)
    · exact backfill_backfilled hserving.toDependable hdigests hbackfill

/-! A cipher in the clear with the limit of the real one, and two documents of one owner: the
name of the first is up to its author. -/

/-- `json.dumps` of texts and of the empty object. -/
def clearDumps : Json → Except Exc Bytes
  | .str text => .ok (utf8 (String.ofList (quote text.toList)))
  | .obj [] => .ok (utf8 "{}")
  | _ => .error .privateDataUnavailable

/-- The cipher in the clear with the size limit of the OpenBao cipher. -/
def limitedCipher : PrivateDataCipher where
  encrypt := fun value binding =>
    match clearDumps value with
    | .ok raw => if maxValue < raw.length then .error (.valueError "too large")
        else clearCipher.encrypt value binding
    | .error e => .error e
  decrypt := clearCipher.decrypt
  lookup := fun digest _ =>
    .ok ("vault:v1:" ++ String.ofList (digest.toList.take 43 ++ ['=']))

theorem limitedCipher_encrypt {value : Json} {binding : StorageBinding} {ciphertext : String}
    (h : limitedCipher.encrypt value binding = .ok ciphertext) :
    Fits clearDumps value ∧ clearCipher.encrypt value binding = .ok ciphertext := by
  unfold limitedCipher at h
  dsimp only at h
  split at h
  · next raw hraw =>
      split at h
      · cases h
      · next hlength => exact ⟨⟨raw, hraw, Nat.not_lt.mp hlength⟩, h⟩
  · cases h

/-- A text in the clear is shorter than its ciphertext. -/
theorem clearCipher_decrypt_ne {ciphertext : String} {binding : StorageBinding} :
    clearCipher.decrypt ciphertext binding ≠ .ok (.str ciphertext) := by
  intro h
  have hopens := clearCipher_uses.decrypt_opens h
  unfold clearOpens at hopens
  split at hopens
  · unfold clearDecode at hopens
    split at hopens
    · next text hdrop =>
        have htext : String.ofList text = ciphertext := Json.str.inj (Option.some.inj hopens)
        have hlength := congrArg List.length hdrop
        have hshort : (String.ofList text).length = ciphertext.length := by rw [htext]
        rw [List.length_drop, List.length_cons] at hlength
        rw [String.length_ofList] at hshort
        rw [String.length_toList] at hlength
        omega
    · cases hopens
    · cases hopens
  · cases hopens

/-- The cipher of the sample serves: it refuses what is too long, and opens what it has encrypted.
-/
theorem limitedCipher_serving : Serving clearDumps limitedCipher where
  decrypt_encrypt := fun h =>
    clearCipher_dependable.decrypt_encrypt (limitedCipher_encrypt h).2
  encrypt_prefix := fun h => clearCipher_dependable.encrypt_prefix (limitedCipher_encrypt h).2
  lookup_prefix := by
    intro value binding fingerprint h
    cases h
    have hvault : "vault:".toList = ['v', 'a', 'u', 'l', 't', ':'] := String.toList_ofList
    have hversion : "vault:v1:".toList = ['v', 'a', 'u', 'l', 't', ':', 'v', '1', ':'] :=
      String.toList_ofList
    unfold startsWith
    rw [String.toList_append, hvault, hversion]
    rfl
  encrypt_ok_iff := by
    intro cell value _
    refine ⟨fun ⟨_, h⟩ => (limitedCipher_encrypt h).1, ?_⟩
    rintro ⟨raw, hraw, hlength⟩
    have hencrypt : limitedCipher.encrypt value cell.binding =
        clearCipher.encrypt value cell.binding := by
      unfold limitedCipher
      dsimp only
      rw [hraw]
      exact if_neg (Nat.not_lt.mpr hlength)
    rw [hencrypt]
    unfold clearDumps at hraw
    split at hraw
    · exact ⟨_, rfl⟩
    · exact ⟨_, rfl⟩
    · cases hraw
  lookup_ok := by
    rintro owner documentId digest ⟨hlength, -⟩
    refine ⟨_, rfl, ?_⟩
    rw [← String.length_toList] at hlength
    have hversion : "vault:v1:".length = 9 := by decide
    rw [String.length_append, hversion, String.length_ofList, List.length_append, List.length_take,
      hlength]
    rfl
  decrypt_ne := clearCipher_decrypt_ne

/-- A document with this name. -/
def namedDocument (name : String) : Document :=
  { (default : Document) with id := 1, userId := 2, name := name }

/-- Another document of its owner. -/
def otherDocument : Document :=
  { (default : Document) with id := 3, userId := 2, name := "other" }

/-- The webpage of the other document, with legacy columns. -/
def otherPage : DocumentWebpage :=
  { (default : DocumentWebpage) with
    documentId := 3
    urls := ["u"]
    content := "page"
    contentHash := some (String.ofList (List.replicate 64 'a')) }

/-- A database with these rows. -/
def namedStore (name : String) : Database where
  documents := ⟨[namedDocument name, otherDocument], by simp [namedDocument, otherDocument]⟩
  chunks := .empty
  webpages := ⟨[otherPage], List.nodup_singleton _⟩
  revisions := .empty
  revisionChunks := .empty
  revisionWebpages := .empty
  erasedOwners := []
  chunks_fk := by simp
  webpages_fk := by simp [otherPage, otherDocument]
  revisionChunks_fk := Database.empty.revisionChunks_fk
  revisionWebpages_fk := Database.empty.revisionWebpages_fk

theorem namedStore_legacy (name : String) : LegacyRows clearDumps (namedStore name) where
  chunks := by simp [namedStore]
  revisionChunks := by simp [namedStore]
  webpages := by
    intro p hp
    obtain rfl : p = otherPage := List.mem_singleton.mp hp
    refine ⟨by decide, ?_⟩
    rintro digest ⟨⟩
    refine ⟨by decide, ?_⟩
    intro c hc
    rw [String.toList_ofList] at hc
    rw [List.eq_of_mem_replicate hc]
    decide

/-- A document named like a ciphertext: its name cannot be read, and the backfill of this
database does not complete. -/
theorem vault_name_stops :
    Serving clearDumps limitedCipher ∧ LegacyRows clearDumps (namedStore "vault: notes") ∧
      "vault: notes" ∈ storedTexts (namedStore "vault: notes") ∧
      (∀ binding, limitedCipher.privateData.readText "vault: notes" binding ≠ .ok "vault: notes") ∧
      (∀ reports s', backfill limitedCipher true ⟨namedStore "vault: notes", true⟩ ≠
        .ok (reports, s')) ∧
      ¬NeverMistaken limitedCipher (namedStore "vault: notes") := by
  have hmem : "vault: notes" ∈ storedTexts (namedStore "vault: notes") := by decide +kernel
  have hreads : ∀ binding,
      limitedCipher.privateData.readText "vault: notes" binding ≠ .ok "vault: notes" := by
    intro binding h
    have hplain := encrypted_of_readText limitedCipher_serving h
    have hencrypted : encrypted "vault: notes" = true := by decide +kernel
    rw [hencrypted] at hplain
    cases hplain
  have hstops : (convertDocument limitedCipher (namedDocument "vault: notes") 2).isOk = false := by
    decide +kernel
  refine ⟨limitedCipher_serving, namedStore_legacy _, hmem, hreads, ?_, ?_⟩
  · intro reports s' h
    obtain ⟨values, hvalues⟩ := (convertible_of_backfill h).documents
      (namedDocument "vault: notes", 2) List.mem_cons_self
    change convertDocument limitedCipher (namedDocument "vault: notes") 2 = .ok values at hvalues
    rw [hvalues] at hstops
    cases hstops
  · intro h
    exact hreads default (h.reads _ hmem default)

/-- With another name nothing is mistaken. -/
theorem never_mistaken_iff_notes : NeverMistaken limitedCipher (namedStore "notes") := by
  refine (never_mistaken_iff clearDumps limitedCipher limitedCipher_serving (namedStore "notes")
    (namedStore_legacy _)).mpr ⟨?_, ?_⟩
  · have hall : ∀ value ∈ storedTexts (namedStore "notes"), encrypted value = false ∧
        (utf8 (String.ofList (quote value.toList))).length ≤ maxValue := by
      decide +kernel
    intro value hvalue
    obtain ⟨hplain, hfits⟩ := hall value hvalue
    exact ⟨hplain, _, rfl, hfits⟩
  · intro d _
    exact List.not_mem_nil

end PortRag.Maintenance
