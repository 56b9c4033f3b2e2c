import PortRag.Service.Statements
import PortRag.Service.Calls

set_option autoImplicit false

/-!
# Reads of a sealed database

Every reading path names for each column it reads the binding under which `reveal` opens
that column.  So on a sealed database it imitates itself on the plaintext.
-/

namespace PortRag.Service

open PortRag.Foundation PortRag.Db PortRag.Security PortRag.Http PortRag.Ingest PortRag.Webpages
  PortRag.Knowledge PortRag.Search

variable {opens : Opens} {cipher : PrivateDataCipher} {db : Database}

/-! ## Columns -/

theorem readOptional_follows (huses : cipher.Uses opens) {binding : StorageBinding}
    {stored : Option String} (h : ∀ e ∈ stored, TextSealed opens e binding) :
    Follows (cipher.ReadFails opens) Eq (cipher.privateData.readOptional stored binding)
      (PrivateData.plain.readOptional (stored.map (fun e => revealText opens e binding))
        binding) := by
  cases stored with
  | none => exact .ok rfl
  | some e =>
      refine (readText_follows huses (h e rfl)).map ?_
      rintro _ _ rfl
      rfl

/-- A list in the clear, element by element with its index. -/
theorem zipIdx_map_zipIdx {α β : Type} (f : α × Nat → β) (xs : List α) :
    (xs.zipIdx.map f).zipIdx = xs.zipIdx.map (fun x => (f x, x.2)) := by
  apply List.ext_getElem
  · simp
  · intro i h h'
    simp

theorem readUrls_follows (huses : cipher.Uses opens) {owner resource : String}
    {urls : List String}
    (h : ∀ u ∈ urls.zipIdx, TextSealed opens u.1 ⟨owner, resource, urlField u.2⟩) :
    Follows (cipher.ReadFails opens) Eq (readUrls cipher.privateData owner resource urls)
      (readUrls .plain owner resource (revealUrls opens owner resource urls)) := by
  unfold readUrls
  rw [revealUrls, zipIdx_map_zipIdx]
  exact .mapM_map_eq (fun u hu => readText_follows huses (h u hu))

/-! ## Records -/

theorem toPrivateRecord_follows (huses : cipher.Uses opens) {d : Document} (hd : d.Sealed opens)
    {page : Option DocumentWebpage} (hpage : ∀ p ∈ page, p.Sealed opens d.userId.str)
    (hid : ∀ p ∈ page, p.documentId = d.id) :
    Follows (cipher.ReadFails opens) Eq (toPrivateRecord cipher.privateData d page)
      (toPrivateRecord .plain (d.reveal opens)
        (page.map (fun p => p.reveal opens d.userId.str))) := by
  have hwebpage : Follows (cipher.ReadFails opens) Eq
      (readWebpage cipher.privateData d.userId.str d.id.str page)
      (readWebpage .plain d.userId.str d.id.str
        (page.map (fun p => p.reveal opens d.userId.str))) := by
    cases page with
    | none => exact .ok rfl
    | some p =>
        have hp := hpage p rfl
        rw [← hid p rfl]
        refine .bind (readUrls_follows huses hp.urls) ?_
        rintro _ urls rfl
        refine .bind (readOptional_follows huses hp.syncError) ?_
        rintro _ syncError rfl
        exact .pure rfl
  refine .bind hwebpage ?_
  rintro _ webpage rfl
  refine .bind (readText_follows huses hd.name) ?_
  rintro _ name rfl
  refine .bind (readOptional_follows huses hd.error) ?_
  rintro _ error rfl
  exact .pure rfl

theorem detail_follows (huses : cipher.Uses opens) {d : Document} (hd : d.Sealed opens)
    {p : DocumentWebpage} (hp : p.Sealed opens d.userId.str) (hid : p.documentId = d.id) :
    Follows (cipher.ReadFails opens) Eq (detail cipher.privateData d p)
      (detail .plain (d.reveal opens) (p.reveal opens d.userId.str)) := by
  have hpage : ∀ q ∈ some p, q.Sealed opens d.userId.str := by
    rintro _ ⟨⟩
    exact hp
  have hpageId : ∀ q ∈ some p, q.documentId = d.id := by
    rintro _ ⟨⟩
    exact hid
  refine .bind (toPrivateRecord_follows huses hd hpage hpageId) ?_
  rintro _ record rfl
  have hcontent : Follows (cipher.ReadFails opens) Eq
      (cipher.privateData.readText p.content
        ⟨d.userId.str, p.documentId.str, "webpage:content"⟩)
      (.ok (p.reveal opens d.userId.str).content) := readText_follows huses hp.content
  rw [hid] at hcontent
  refine .bind hcontent ?_
  rintro _ content rfl
  exact .pure rfl

/-! ## Chunks -/

/-- A candidate in the clear: a frozen one under the bindings of its revision. -/
def revealCandidate (opens : Opens) (owner : String) (row : CandidateRow) : CandidateRow :=
  match row.storageRevisionId with
  | none =>
      { row with
        documentName := revealText opens row.documentName
          ⟨owner, row.documentId.str, "document:name"⟩
        text := revealText opens row.text ⟨owner, row.documentId.str, chunkTextField row.seq⟩
        metadata := revealJson opens row.metadata
          ⟨owner, row.documentId.str, chunkMetadataField row.seq⟩ }
  | some revisionId =>
      { row with
        documentName := revealText opens row.documentName
          ⟨owner, revisionId.str, frozenNameField row.documentId⟩
        text := revealText opens row.text
          ⟨owner, revisionId.str, frozenTextField row.documentId row.seq⟩
        metadata := revealJson opens row.metadata
          ⟨owner, revisionId.str, frozenMetadataField row.documentId row.seq⟩ }

@[simp] theorem revealCandidate_embedding (owner : String) (row : CandidateRow) :
    (revealCandidate opens owner row).embedding = row.embedding := by
  unfold revealCandidate
  split <;> rfl

/-- The owner in the bindings of a revision. -/
theorem revisionOwner_of_owns {userId revisionId : Uuid}
    (h : db.ownsRevision userId revisionId = true) :
    db.revisionOwner revisionId = userId.str := by
  obtain ⟨r, hr, howner⟩ := (Option.any_eq_true _ _).mp h
  rw [Database.revisionOwner_of hr, of_decide_eq_true howner]

theorem frozenCandidates_plaintext (db : Database) (revisionId userId : Uuid) :
    frozenCandidates (db.plaintext opens) revisionId userId =
      (frozenCandidates db revisionId userId).map (revealCandidate opens userId.str) := by
  unfold frozenCandidates
  have howns : (db.plaintext opens).ownsRevision userId revisionId =
      db.ownsRevision userId revisionId := rfl
  rw [howns]
  split
  · next h =>
      rw [Database.frozenOf_plaintext, revisionOwner_of_owns h, List.filter_map, List.map_map,
        List.map_map]
      rfl
  · rfl

end PortRag.Service
