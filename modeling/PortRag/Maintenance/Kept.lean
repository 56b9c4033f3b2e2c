import PortRag.Maintenance.Rows

set_option autoImplicit false

/-!
# Kept rows

What the conversion of a row keeps, for each of the four tables: a relation between the row
before and after, that the loop's turn of a row is related to it, and that a related row is
not legacy and converts to itself.
-/

namespace PortRag.Maintenance

open PortRag.Foundation PortRag.Db PortRag.Security PortRag.Http PortRag.Ingest PortRag.Knowledge
  PortRag.Webpages

/-! ## The rows of each table -/

/-- A row of `documents` before and after. -/
structure DocumentKept (cipher : PrivateDataCipher) (owner : Uuid) (before after : Document) :
    Prop where
  name : TextKept cipher ⟨owner.str, before.id.str, "document:name"⟩ before.name after.name
  error : OptionalKept cipher ⟨owner.str, before.id.str, "document:error"⟩
    before.error after.error
  others : after = { before with name := after.name, error := after.error }

/-- A row of `chunks` before and after. -/
structure ChunkKept (cipher : PrivateDataCipher) (owner : Uuid) (before after : DocumentChunk) :
    Prop where
  text : TextKept cipher ⟨owner.str, before.documentId.str, chunkTextField before.seq⟩
    before.text after.text
  metadata : MetadataKept cipher ⟨owner.str, before.documentId.str, chunkMetadataField before.seq⟩
    before.metadata after.metadata
  others : after = { before with text := after.text, metadata := after.metadata }

/-- A row of `knowledge_revision_chunks` before and after. -/
structure FrozenKept (cipher : PrivateDataCipher) (owner : Uuid)
    (before after : KnowledgeRevisionChunk) : Prop where
  documentName : TextKept cipher
    ⟨owner.str, before.revisionId.str, frozenNameField before.sourceDocumentId⟩
    before.documentName after.documentName
  text : TextKept cipher
    ⟨owner.str, before.revisionId.str, frozenTextField before.sourceDocumentId before.seq⟩
    before.text after.text
  metadata : MetadataKept cipher
    ⟨owner.str, before.revisionId.str, frozenMetadataField before.sourceDocumentId before.seq⟩
    before.metadata after.metadata
  others : after = { before with
    documentName := after.documentName
    text := after.text
    metadata := after.metadata }

/-- A row of `document_webpages` before and after; the hash is looked up under the binding of
the worker's fingerprint. -/
structure WebpageKept (cipher : PrivateDataCipher) (owner : Uuid)
    (before after : DocumentWebpage) : Prop where
  urls : UrlsKept cipher owner.str before.documentId.str before.urls after.urls
  urls_read : ∀ plain,
    readUrls cipher.privateData owner.str before.documentId.str before.urls = .ok plain →
      readUrls cipher.privateData owner.str before.documentId.str after.urls = .ok plain
  content : TextKept cipher ⟨owner.str, before.documentId.str, "webpage:content"⟩
    before.content after.content
  syncError : OptionalKept cipher ⟨owner.str, before.documentId.str, "webpage:error"⟩
    before.syncError after.syncError
  contentHash : ∀ claim : WebpageClaim, claim.userId = owner →
    claim.documentId = before.documentId →
      HashKept cipher (fingerprintBinding claim) before.contentHash after.contentHash
  others : after = { before with
    urls := after.urls
    content := after.content
    syncError := after.syncError
    contentHash := after.contentHash }

/-- What a row relation says of a target: the turn of an admissible row is related to it, and
a related row is no longer legacy and converts. -/
structure Keeps {ρ α : Type} (T : Target ρ α) (cipher : PrivateDataCipher) (admissible : ρ → Prop)
    (Row : Uuid → ρ → ρ → Prop) : Prop where
  written : ∀ {row owner values}, admissible row → T.convert cipher row owner = .ok values →
    Row owner row (T.assign values row)
  untouched : ∀ {row owner values}, admissible row → T.convert cipher row owner = .ok values →
    T.legacy row = false → Row owner row row
  settled : ∀ {owner before after}, Row owner before after → T.legacy after = false
  converts : ∀ {owner before after}, Row owner before after →
    ∃ values, T.convert cipher after owner = .ok values

section Rows

variable {cipher : PrivateDataCipher}

theorem encrypted_of_legacyText {value : String} (h : legacyText (some value) = false) :
    encrypted value = true := by
  change (!encrypted value) = false at h
  rwa [Bool.not_eq_false'] at h

/-- A text that is not legacy is converted to itself. -/
theorem convertText_of_encrypted {value after : String} {binding : StorageBinding}
    (hencrypted : encrypted value = true) (h : convertText cipher value binding = .ok after) :
    after = value := by
  unfold convertText at h
  rw [if_pos hencrypted] at h
  obtain ⟨_, -, h⟩ := bind_eq_ok.mp h
  exact (pure_eq_ok.mp h).symm

theorem convertOptional_of_encrypted {value after : Option String} {binding : StorageBinding}
    (hencrypted : legacyText value = false) (h : convertOptional cipher value binding = .ok after) :
    after = value := by
  cases value with
  | none => exact (Except.ok.inj h).symm
  | some text =>
      obtain ⟨text', htext, rfl⟩ := map_eq_ok.mp h
      rw [convertText_of_encrypted (encrypted_of_legacyText hencrypted) htext]

theorem convertUrls_of_encrypted {owner resource : String} {urls after : List String}
    (hencrypted : legacyUrls urls = false) (h : convertUrls cipher owner resource urls = .ok after) :
    after = urls := by
  unfold legacyUrls at hencrypted
  rw [List.any_eq_false] at hencrypted
  have hall := mapM_eq_ok.mp h
  have hmap : ∀ (xs : List String) (k : ℕ) (ys : List String), (∀ u ∈ xs, encrypted u = true) →
      List.Forall₂ (fun (u : String × ℕ) a =>
        convertText cipher u.1 ⟨owner, resource, urlField u.2⟩ = .ok a) (xs.zipIdx k) ys →
      ys = xs := by
    intro xs
    induction xs with
    | nil =>
        intro k ys _ hys
        rw [List.zipIdx_nil, List.forall₂_nil_left_iff] at hys
        exact hys
    | cons x rest ih =>
        intro k ys hxs hys
        rw [List.zipIdx_cons] at hys
        cases hys with
        | cons hx hrest =>
            rw [convertText_of_encrypted (hxs x List.mem_cons_self) hx,
              ih (k + 1) _ (fun u hu => hxs u (List.mem_cons_of_mem _ hu)) hrest]
  refine hmap urls 0 after ?_ hall
  intro u hu
  simpa using hencrypted u hu

/-- A text that is not legacy and converts is kept as it is. -/
theorem textKept_self (hcipher : Dependable cipher) {value after : String}
    {binding : StorageBinding} (hencrypted : legacyText (some value) = false)
    (h : convertText cipher value binding = .ok after) : TextKept cipher binding value value := by
  have hkept := convertText_kept hcipher h
  rwa [convertText_of_encrypted (encrypted_of_legacyText hencrypted) h] at hkept

theorem optionalKept_self (hcipher : Dependable cipher) {value after : Option String}
    {binding : StorageBinding} (hencrypted : legacyText value = false)
    (h : convertOptional cipher value binding = .ok after) :
    OptionalKept cipher binding value value := by
  have hkept := convertOptional_kept hcipher h
  rwa [convertOptional_of_encrypted hencrypted h] at hkept

/-- The list that a run-time reader could read is read as before, URL by URL and in its order. -/
theorem UrlsKept.read {owner resource : String} {before after : List String}
    (h : UrlsKept cipher owner resource before after) (plain : List String)
    (hread : readUrls cipher.privateData owner resource before = .ok plain) :
    readUrls cipher.privateData owner resource after = .ok plain := by
  have hbefore := mapM_eq_ok.mp hread
  refine mapM_eq_ok.mpr ?_
  have hall : ∀ (xs ys ps : List String) (k : ℕ),
      List.Forall₂ (fun (u : String × ℕ) a =>
        TextKept cipher ⟨owner, resource, urlField u.2⟩ u.1 a) (xs.zipIdx k) ys →
      List.Forall₂ (fun (u : String × ℕ) p =>
        cipher.privateData.readText u.1 ⟨owner, resource, urlField u.2⟩ = .ok p) (xs.zipIdx k) ps →
      List.Forall₂ (fun (u : String × ℕ) p =>
        cipher.privateData.readText u.1 ⟨owner, resource, urlField u.2⟩ = .ok p) (ys.zipIdx k) ps := by
    intro xs
    induction xs with
    | nil =>
        intro ys ps k hys hps
        cases hys
        exact hps
    | cons x rest ih =>
        intro ys ps k hys hps
        rw [List.zipIdx_cons] at hys hps
        cases hys with
        | cons hx hrest =>
            cases hps with
            | cons hp hps =>
                rw [List.zipIdx_cons]
                exact .cons (hx.read _ hp) (ih _ _ (k + 1) hrest hps)
  exact hall before after plain 0 h hbefore

theorem documents_keeps (hcipher : Dependable cipher) :
    Keeps documents cipher (fun _ => True) (DocumentKept cipher) where
  written := by
    intro row owner values _ h
    obtain ⟨name, hname, h⟩ := bind_eq_ok.mp h
    obtain ⟨error, herror, h⟩ := bind_eq_ok.mp h
    cases h
    exact ⟨convertText_kept hcipher hname, convertOptional_kept hcipher herror, rfl⟩
  untouched := by
    intro row owner values _ h hlegacy
    obtain ⟨name, hname, h⟩ := bind_eq_ok.mp h
    obtain ⟨error, herror, -⟩ := bind_eq_ok.mp h
    obtain ⟨hplainName, hplainError⟩ := Bool.or_eq_false_iff.mp hlegacy
    exact ⟨textKept_self hcipher hplainName hname, optionalKept_self hcipher hplainError herror, rfl⟩
  settled := by
    intro owner before after h
    exact Bool.or_eq_false_iff.mpr ⟨legacyText_of_encrypted h.name.encrypted, h.error.encrypted⟩
  converts := by
    intro owner before after h
    have hid : after.id = before.id := by rw [h.others]
    refine ⟨⟨after.name, after.error⟩, bind_eq_ok.mpr ⟨after.name, ?_, bind_eq_ok.mpr
      ⟨after.error, ?_, rfl⟩⟩⟩
    · rw [hid]
      exact h.name.convertText
    · rw [hid]
      exact h.error.convertOptional

/-- The target of the chunks keeps them: text and metadata under the bindings of their own row. -/
theorem chunks_keeps (hcipher : Dependable cipher) :
    Keeps chunks cipher (fun _ => True) (ChunkKept cipher) where
  written := by
    intro row owner values _ h
    obtain ⟨text, htext, h⟩ := bind_eq_ok.mp h
    obtain ⟨metadata, hmetadata, h⟩ := bind_eq_ok.mp h
    cases h
    exact ⟨convertText_kept hcipher htext, convertMetadata_kept hcipher hmetadata, rfl⟩
  untouched := by
    intro row owner values _ h hlegacy
    obtain ⟨text, htext, h⟩ := bind_eq_ok.mp h
    obtain ⟨metadata, hmetadata, -⟩ := bind_eq_ok.mp h
    obtain ⟨hplainText, hplainMetadata⟩ := Bool.or_eq_false_iff.mp hlegacy
    exact ⟨textKept_self hcipher hplainText htext, metadataKept_refl hmetadata hplainMetadata, rfl⟩
  settled := by
    intro owner before after h
    exact Bool.or_eq_false_iff.mpr
      ⟨legacyText_of_encrypted h.text.encrypted, h.metadata.encrypted⟩
  converts := by
    intro owner before after h
    have hdoc : after.documentId = before.documentId := by rw [h.others]
    have hseq : after.seq = before.seq := by rw [h.others]
    obtain ⟨metadata, hmetadata⟩ := h.metadata.converts
    refine ⟨⟨after.text, metadata⟩, bind_eq_ok.mpr ⟨after.text, ?_, bind_eq_ok.mpr
      ⟨metadata, ?_, rfl⟩⟩⟩
    · rw [hdoc, hseq]
      exact h.text.convertText
    · rw [hdoc, hseq]
      exact hmetadata

/-- The target of the frozen rows keeps them: name, text and metadata under the bindings of the
revision. -/
theorem revisionChunks_keeps (hcipher : Dependable cipher) :
    Keeps revisionChunks cipher (fun _ => True) (FrozenKept cipher) where
  written := by
    intro row owner values _ h
    obtain ⟨name, hname, h⟩ := bind_eq_ok.mp h
    obtain ⟨text, htext, h⟩ := bind_eq_ok.mp h
    obtain ⟨metadata, hmetadata, h⟩ := bind_eq_ok.mp h
    cases h
    exact ⟨convertText_kept hcipher hname, convertText_kept hcipher htext,
      convertMetadata_kept hcipher hmetadata, rfl⟩
  untouched := by
    intro row owner values _ h hlegacy
    obtain ⟨name, hname, h⟩ := bind_eq_ok.mp h
    obtain ⟨text, htext, h⟩ := bind_eq_ok.mp h
    obtain ⟨metadata, hmetadata, -⟩ := bind_eq_ok.mp h
    obtain ⟨hplain, hplainMetadata⟩ := Bool.or_eq_false_iff.mp hlegacy
    obtain ⟨hplainName, hplainText⟩ := Bool.or_eq_false_iff.mp hplain
    exact ⟨textKept_self hcipher hplainName hname, textKept_self hcipher hplainText htext,
      metadataKept_refl hmetadata hplainMetadata, rfl⟩
  settled := by
    intro owner before after h
    exact Bool.or_eq_false_iff.mpr ⟨Bool.or_eq_false_iff.mpr
      ⟨legacyText_of_encrypted h.documentName.encrypted, legacyText_of_encrypted h.text.encrypted⟩,
      h.metadata.encrypted⟩
  converts := by
    intro owner before after h
    have hrevision : after.revisionId = before.revisionId := by rw [h.others]
    have hsource : after.sourceDocumentId = before.sourceDocumentId := by rw [h.others]
    have hseq : after.seq = before.seq := by rw [h.others]
    obtain ⟨metadata, hmetadata⟩ := h.metadata.converts
    refine ⟨⟨after.documentName, after.text, metadata⟩, bind_eq_ok.mpr ⟨after.documentName, ?_,
      bind_eq_ok.mpr ⟨after.text, ?_, bind_eq_ok.mpr ⟨metadata, ?_, rfl⟩⟩⟩⟩
    · rw [hrevision, hsource]
      exact h.documentName.convertText
    · rw [hrevision, hsource, hseq]
      exact h.text.convertText
    · rw [hrevision, hsource, hseq]
      exact hmetadata

theorem WebpageKept.hash_encrypted {owner : Uuid} {before after : DocumentWebpage}
    (h : WebpageKept cipher owner before after) : legacyText after.contentHash = false := by
  let claim : WebpageClaim := { (default : WebpageClaim) with
    documentId := before.documentId
    userId := owner }
  have hhash := h.contentHash claim rfl rfl
  exact hhash.encrypted

/-- The target of the webpages keeps them: URLs, content, hash and error, under the bindings of the
document. -/
theorem documentWebpages_keeps (hcipher : Dependable cipher) :
    Keeps documentWebpages cipher (fun row => row.contentHash ≠ some "") (WebpageKept cipher) where
  written := by
    intro row owner values hempty h
    obtain ⟨urls, hurls, h⟩ := bind_eq_ok.mp h
    obtain ⟨content, hcontent, h⟩ := bind_eq_ok.mp h
    obtain ⟨error, herror, h⟩ := bind_eq_ok.mp h
    obtain ⟨hash, hhash, h⟩ := bind_eq_ok.mp h
    cases h
    have hkept := convertUrls_kept hcipher hurls
    refine ⟨hkept, hkept.read, convertText_kept hcipher hcontent,
      convertOptional_kept hcipher herror, ?_, rfl⟩
    rintro claim rfl hdocument
    unfold fingerprintBinding
    rw [hdocument]
    exact convertHash_kept hcipher hempty hhash
  untouched := by
    intro row owner values hempty h hlegacy
    obtain ⟨urls, hurls, h⟩ := bind_eq_ok.mp h
    obtain ⟨content, hcontent, h⟩ := bind_eq_ok.mp h
    obtain ⟨error, herror, h⟩ := bind_eq_ok.mp h
    obtain ⟨hash, hhash, -⟩ := bind_eq_ok.mp h
    obtain ⟨hlegacy, hplainHash⟩ := Bool.or_eq_false_iff.mp hlegacy
    obtain ⟨hlegacy, hplainError⟩ := Bool.or_eq_false_iff.mp hlegacy
    obtain ⟨hplainUrls, hplainContent⟩ := Bool.or_eq_false_iff.mp hlegacy
    have hkept := convertUrls_kept hcipher hurls
    rw [convertUrls_of_encrypted hplainUrls hurls] at hkept
    refine ⟨hkept, fun _ hread => hread, textKept_self hcipher hplainContent hcontent,
      optionalKept_self hcipher hplainError herror, ?_, rfl⟩
    intro claim _ _
    exact convertHash_kept hcipher hempty (convertHash_of_encrypted hplainHash)
  settled := by
    intro owner before after h
    exact Bool.or_eq_false_iff.mpr ⟨Bool.or_eq_false_iff.mpr ⟨Bool.or_eq_false_iff.mpr
      ⟨h.urls.encrypted, legacyText_of_encrypted h.content.encrypted⟩, h.syncError.encrypted⟩, h.hash_encrypted⟩
  converts := by
    intro owner before after h
    have hdoc : after.documentId = before.documentId := by rw [h.others]
    refine ⟨⟨after.urls, after.content, after.syncError, after.contentHash⟩,
      bind_eq_ok.mpr ⟨after.urls, ?_, bind_eq_ok.mpr ⟨after.content, ?_, bind_eq_ok.mpr
        ⟨after.syncError, ?_, bind_eq_ok.mpr ⟨after.contentHash, ?_, rfl⟩⟩⟩⟩⟩
    · rw [hdoc]
      exact h.urls.convertUrls
    · rw [hdoc]
      exact h.content.convertText
    · rw [hdoc]
      exact h.syncError.convertOptional
    · exact convertHash_of_encrypted h.hash_encrypted

end Rows

end PortRag.Maintenance
