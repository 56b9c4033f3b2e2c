import PortRag.Webpages.Publication
import PortRag.Webpages.Syncs

set_option autoImplicit false

/-!
# What counts as unchanged

The worker compares the hash that its claim carries with two candidates, the plain digest
and the fingerprint; the repository compares the stored hash with the fingerprint alone.
They disagree on one kind of row: a row that holds the plain digest of the fetched pages.
-/

namespace PortRag.Webpages

open PortRag.Foundation PortRag.Db PortRag.Security PortRag.Http PortRag.Ingest

/-- The claim is current: it holds its row and carries the stored hash. -/
structure Current (db : Database) (claim : WebpageClaim) (v : PageView) : Prop where
  accepts : Accepts db claim v
  contentHash : claim.contentHash = v.page.contentHash

/-- The worker is let through to `finish`: every page is fetched, not blank and within the
size limit, and the embedder answers. -/
structure SyncEnv.Provides (env : SyncEnv) (claim : WebpageClaim) (pages : List WebpagePage) :
    Prop where
  current : ∀ i, env.claimIsCurrent i = .ok true
  fetched : List.Forall₂ (fun (u : String × ℕ) page => env.fetch u.2 u.1 = .ok page)
    claim.urls.zipIdx pages
  nonblank : ∀ page ∈ pages, strip page.text ≠ ""
  size : (pages.map (·.text.utf8ByteSize)).sum ≤ maxDocumentBytes
  embeds : ∀ i texts, ∃ vectors, env.embedTexts i texts = .ok vectors ∧
    vectors.length = texts.length

section Loops

variable {env : SyncEnv}

theorem fetchPages_of_provides (hcurrent : ∀ i, env.claimIsCurrent i = .ok true)
    {urls : List String} {pages : List WebpagePage} {i totalBytes : Nat}
    (hfetched : List.Forall₂ (fun (u : String × ℕ) page => env.fetch u.2 u.1 = .ok page)
      (urls.zipIdx i) pages)
    (hnonblank : ∀ page ∈ pages, strip page.text ≠ "")
    (hsize : totalBytes + (pages.map (·.text.utf8ByteSize)).sum ≤ maxDocumentBytes) :
    fetchPages env urls i totalBytes = .ok (some pages) := by
  induction urls generalizing i totalBytes pages with
  | nil =>
      cases hfetched
      rfl
  | cons url rest ih =>
      rw [List.zipIdx_cons] at hfetched
      cases hfetched with
      | @cons _ page _ tail hpage htail =>
          have hpage' := hnonblank page List.mem_cons_self
          rw [List.map_cons, List.sum_cons] at hsize
          have htotal : ¬ maxDocumentBytes < totalBytes + page.text.utf8ByteSize := by omega
          have hrest : fetchPages env rest (i + 1) (totalBytes + page.text.utf8ByteSize)
              = .ok (some tail) :=
            ih htail (fun p hp => hnonblank p (List.mem_cons_of_mem _ hp)) (by omega)
          simp [fetchPages, hcurrent, hpage, hpage', htotal, hrest, bind, Except.bind, pure,
            Except.pure]

theorem embedBatches_of_provides (hcurrent : ∀ i, env.claimIsCurrent i = .ok true)
    (hembeds : ∀ i texts, ∃ vectors, env.embedTexts i texts = .ok vectors ∧
      vectors.length = texts.length) (checked : Nat) (batches : List (List IngestChunk)) (i : Nat) :
    ∃ embeddings, embedBatches env checked batches i = .ok (some embeddings) := by
  induction batches generalizing i with
  | nil => exact ⟨[], rfl⟩
  | cons batch rest ih =>
      obtain ⟨vectors, hvectors, hlength⟩ := hembeds i (batch.map (·.text))
      obtain ⟨embeddings, hrest⟩ := ih (i + 1)
      have hlength' : vectors.length = batch.length := by simpa using hlength
      refine ⟨vectors ++ embeddings, ?_⟩
      simp [embedBatches, hcurrent, hvectors, hlength', hrest, bind, Except.bind, pure,
        Except.pure]

end Loops

section Syncs

variable {sha256 : String → String} {cipher : PrivateDataCipher} {env : SyncEnv}
  {claim : WebpageClaim} {pages : List WebpagePage} {fingerprint : String}

/-- The sync of a claim that carries one of the two candidates. -/
theorem syncClaim_skips (hprovides : env.Provides claim pages)
    (hlookup : cipher.lookup (pageDigest sha256 claim.urls pages) (fingerprintBinding claim)
      = .ok fingerprint)
    (hhash : claim.contentHash = some (pageDigest sha256 claim.urls pages) ∨
      claim.contentHash = some fingerprint) :
    syncClaim sha256 cipher env claim
      = .ok (some ⟨pages, joinedText pages, fingerprint, none, none⟩) := by
  have hfetched := fetchPages_of_provides hprovides.current hprovides.fetched hprovides.nonblank
    (by rw [Nat.zero_add]; exact hprovides.size)
  simp only [syncClaim, hfetched, hlookup, if_pos hhash, bind, Except.bind, pure, Except.pure]

/-- The sync of a claim that carries neither. -/
theorem syncClaim_embeds (hprovides : env.Provides claim pages)
    (hlookup : cipher.lookup (pageDigest sha256 claim.urls pages) (fingerprintBinding claim)
      = .ok fingerprint)
    (hhash : ¬ (claim.contentHash = some (pageDigest sha256 claim.urls pages) ∨
      claim.contentHash = some fingerprint)) :
    ∃ embeddings, syncClaim sha256 cipher env claim
      = .ok (some ⟨pages, joinedText pages, fingerprint, some (pageChunks claim.urls pages),
          some embeddings⟩) := by
  have hfetched := fetchPages_of_provides hprovides.current hprovides.fetched hprovides.nonblank
    (by rw [Nat.zero_add]; exact hprovides.size)
  obtain ⟨embeddings, hembedded⟩ := embedBatches_of_provides hprovides.current hprovides.embeds
    claim.urls.length (batches (pageChunks claim.urls pages)) 0
  refine ⟨embeddings, ?_⟩
  simp only [syncClaim, hfetched, hlookup, if_neg hhash, hembedded, bind, Except.bind, pure,
    Except.pure, Option.map_some]

/-- Pages that are not blank have a text. -/
theorem joinedText_ne_empty (hpages : pages ≠ [])
    (hnonblank : ∀ page ∈ pages, strip page.text ≠ "") : joinedText pages ≠ "" := by
  cases pages with
  | nil => exact absurd rfl hpages
  | cons page rest =>
      have htext : page.text ≠ "" := by
        intro hnone
        have hpage := hnonblank page List.mem_cons_self
        rw [hnone] at hpage
        exact hpage (by decide)
      cases rest with
      | nil => simpa [joinedText] using htext
      | cons next rest => simp [joinedText, htext]

/-- `finish` with the stored hash confirms it: the document rows are touched, the chunk rows
are not. -/
theorem finish_confirms {pd : PrivateData} {uuid4 : Nat → Uuid} {now : Time} {db : Database}
    {v : PageView} {content : String} {chunks : Option (List IngestChunk)}
    {embeddings : Option (List Embedding)} (haccepts : Accepts db claim v)
    (hstored : v.page.contentHash = some fingerprint) (hfingerprint : fingerprint ≠ "")
    (hcontent : content ≠ "") :
    (finish pd uuid4 now db claim content fingerprint chunks embeddings).result = .ok true ∧
      (finish pd uuid4 now db claim content fingerprint chunks embeddings).db.chunks
        = db.chunks := by
  have hselect := select_of_viewOf haccepts.view haccepts.owner
  have hholds : holds claim v.page = true := holds_iff.mpr haccepts.held
  have hpublish : publish pd uuid4 db claim v.document v.page (some content) (some fingerprint)
      chunks embeddings = .ok ({ v.document with status := .ready, error := none },
        { v.page with syncStatus := .idle }, db) := by
    have hcontent' : (some content).filter (· ≠ "") = some content := by simp [hcontent]
    have hfingerprint' : (some fingerprint).filter (· ≠ "") = some fingerprint := by
      simp [hfingerprint]
    rw [publish, hcontent', hfingerprint']
    exact if_neg (not_not.mpr hstored)
  have hlock : lockActiveOwner db claim.userId = .ok () := if_neg haccepts.active
  have ht : completeTransaction pd uuid4 now db claim (some content) (some fingerprint) chunks
      embeddings none = .ok (true,
        (db.updateDocument { v.document with
          status := .ready, error := none, updatedAt := now }).updateWebpage
        (closed now (some (v.page.contentHash ≠ some fingerprint)) none
          { v.page with syncStatus := .idle })) := by
    simp only [completeTransaction, hlock, hselect, hholds, if_true, hpublish, bind, Except.bind,
      pure, Except.pure]
  rw [finish, complete, ht]
  exact ⟨rfl, rfl⟩

/-! ## Agreement -/

/-- The worker and the repository agree on a sync of these pages.  The sync hands chunks over
exactly when the repository judges the content changed; and a sync of pages that the stored
hash stands for succeeds, keeps the chunk rows and does not ask the embedder. -/
structure Agreement (sha256 : String → String) (cipher : PrivateDataCipher) (env : SyncEnv)
    (uuid4 : Nat → Uuid) (now : Time) (db : Database) (claim : WebpageClaim)
    (pages : List WebpagePage) (fingerprint : String) : Prop where
  judged : ∃ sync, syncClaim sha256 cipher env claim = .ok (some sync) ∧
    sync.contentHash = fingerprint ∧
    (sync.chunks = none ↔ storedHash db claim.documentId = some fingerprint)
  identical : (storedHash db claim.documentId = some (pageDigest sha256 claim.urls pages) ∨
      storedHash db claim.documentId = some fingerprint) →
    (process sha256 cipher env uuid4 now db claim).1 = .finished true ∧
      (process sha256 cipher env uuid4 now db claim).2.chunks = db.chunks ∧
      ∀ embedTexts, process sha256 cipher { env with embedTexts := embedTexts } uuid4 now db claim
        = process sha256 cipher env uuid4 now db claim

theorem Current.storedHash_eq {db : Database} {v : PageView} (h : Current db claim v) :
    storedHash db claim.documentId = claim.contentHash := by
  rw [storedHash, h.accepts.view, h.contentHash]
  rfl

/-- A sync of pages that the claim already carries asks the embedder nothing. -/
theorem syncClaim_embedder (embedTexts : Nat → List String → Except Exc (List Embedding))
    (hprovides : env.Provides claim pages)
    (hlookup : cipher.lookup (pageDigest sha256 claim.urls pages) (fingerprintBinding claim)
      = .ok fingerprint)
    (hhash : claim.contentHash = some (pageDigest sha256 claim.urls pages) ∨
      claim.contentHash = some fingerprint) :
    syncClaim sha256 cipher { env with embedTexts := embedTexts } claim
      = syncClaim sha256 cipher env claim := by
  have hfetched : fetchPages { env with embedTexts := embedTexts } claim.urls 0 0
      = .ok (some pages) :=
    @fetchPages_of_provides { env with embedTexts := embedTexts } hprovides.current _ _ _ _
      hprovides.fetched hprovides.nonblank (by rw [Nat.zero_add]; exact hprovides.size)
  rw [syncClaim_skips hprovides hlookup hhash]
  simp only [syncClaim, hfetched, hlookup, if_pos hhash, bind, Except.bind, pure, Except.pure]

/-- A row that holds the plain digest of the pages: the worker hands no chunks over, and the
repository wants them. -/
theorem not_agreement {uuid4 : Nat → Uuid} {now : Time} {db : Database} {v : PageView}
    (hcurrent : Current db claim v) (hprovides : env.Provides claim pages)
    (hlookup : cipher.lookup (pageDigest sha256 claim.urls pages) (fingerprintBinding claim)
      = .ok fingerprint)
    (hplain : storedHash db claim.documentId = some (pageDigest sha256 claim.urls pages))
    (hdiffers : pageDigest sha256 claim.urls pages ≠ fingerprint) :
    ¬ Agreement sha256 cipher env uuid4 now db claim pages fingerprint := by
  rintro ⟨⟨sync, hsync, hhash, hjudged⟩, -⟩
  have hcarries := hcurrent.storedHash_eq.symm.trans hplain
  rw [syncClaim_skips hprovides hlookup (.inl hcarries)] at hsync
  cases hsync
  rw [hplain] at hjudged
  exact hdiffers (Option.some.inj (hjudged.mp rfl))

/-- For a current claim whose pages are all fetched, with the services available: worker and
repository agree exactly when the row does not hold the plain digest of these pages.  Where it does,
the worker takes the pages for unchanged and hands no chunks over, while the repository compares
with the fingerprint, sees a change and raises that the chunks are missing. -/
theorem agreement_iff {uuid4 : Nat → Uuid} {now : Time} {db : Database} {v : PageView}
    (hcurrent : Current db claim v) (hprovides : env.Provides claim pages) (hpages : pages ≠ [])
    (hlookup : cipher.lookup (pageDigest sha256 claim.urls pages) (fingerprintBinding claim)
      = .ok fingerprint)
    (hfingerprint : fingerprint ≠ "") :
    Agreement sha256 cipher env uuid4 now db claim pages fingerprint ↔
      ¬ (storedHash db claim.documentId = some (pageDigest sha256 claim.urls pages) ∧
        pageDigest sha256 claim.urls pages ≠ fingerprint) := by
  have hstored := hcurrent.storedHash_eq
  constructor
  · rintro hagree ⟨hplain, hdiffers⟩
    exact not_agreement hcurrent hprovides hlookup hplain hdiffers hagree
  · intro hnot
    have hcandidates : (claim.contentHash = some (pageDigest sha256 claim.urls pages) ∨
        claim.contentHash = some fingerprint) → claim.contentHash = some fingerprint := by
      rintro (hplain | hsame)
      · by_contra hdiffers
        refine hnot ⟨hstored.trans hplain, fun heq => hdiffers ?_⟩
        rw [hplain, heq]
      · exact hsame
    constructor
    · by_cases hhash : claim.contentHash = some (pageDigest sha256 claim.urls pages) ∨
          claim.contentHash = some fingerprint
      · refine ⟨_, syncClaim_skips hprovides hlookup hhash, rfl, fun _ => ?_, fun _ => rfl⟩
        exact hstored.trans (hcandidates hhash)
      · obtain ⟨embeddings, hsync⟩ := syncClaim_embeds hprovides hlookup hhash
        refine ⟨_, hsync, rfl, fun hnone => (by cases hnone), fun hsame => ?_⟩
        exact absurd (.inr (hstored.symm.trans hsame)) hhash
    · rw [hstored]
      intro hhash
      have hskips := syncClaim_skips hprovides hlookup hhash
      have hrow : v.page.contentHash = some fingerprint :=
        hcurrent.contentHash.symm.trans (hcandidates hhash)
      have hcontent := joinedText_ne_empty hpages hprovides.nonblank
      have hfinish : (finish cipher.privateData uuid4 now db claim (joinedText pages) fingerprint
            none none).result = .ok true ∧
          (finish cipher.privateData uuid4 now db claim (joinedText pages) fingerprint none
            none).db.chunks = db.chunks :=
        finish_confirms hcurrent.accepts hrow hfingerprint hcontent
      obtain ⟨hresult, hchunks⟩ := hfinish
      refine ⟨?_, ?_, fun embedTexts => ?_⟩
      · simp only [process, hskips, hresult]
      · simp only [process, hskips, hresult]
        exact hchunks
      · simp only [process, syncClaim_embedder embedTexts hprovides hlookup hhash]

end Syncs

/-! ## Sample claims -/

theorem sampleEnv_provides {claim : WebpageClaim} (hurls : claim.urls = ["u"]) :
    sampleEnv.Provides claim [samplePage] where
  current := fun _ => rfl
  fetched := by
    rw [hurls]
    exact .cons rfl .nil
  nonblank := by
    intro page hpage
    rw [List.mem_singleton.mp hpage]
    decide +kernel
  size := by decide +kernel
  embeds := fun _ texts => ⟨_, rfl, by simp⟩

theorem sampleLookup {claim : WebpageClaim} (hurls : claim.urls = ["u"]) :
    sampleCipher.lookup (pageDigest sampleDigests.sha256 claim.urls [samplePage])
      (fingerprintBinding claim) = .ok sampleFingerprint := by
  have hdigest : pageDigest sampleDigests.sha256 ["u"] [samplePage] = sampleDigest := by
    decide +kernel
  rw [hurls, hdigest]
  simp [sampleCipher]

/-- An accepted claim is current. -/
theorem current_of_claimed {pd : PrivateData} {token documentId owner : Uuid} {now : Time}
    {db : Database} {claim : WebpageClaim}
    (h : (claimCandidate pd token now db documentId owner).result = .ok (some claim)) :
    ∃ v, Current (claimCandidate pd token now db documentId owner).db claim v := by
  rcases Outcome.ofTransaction_cases db (claimTransaction pd token now db documentId owner)
    with ⟨e, -, ho⟩ | ⟨answer, db', ht, ho⟩
  · rw [claimCandidate, ho] at h
    cases h
  · rw [claimCandidate, ho] at h ⊢
    obtain rfl := Except.ok.inj h
    rcases claimTransaction_ok ht with ⟨hnone, -⟩ |
      ⟨v, urls, hactive, hv, howner, -, -, hclaim, rfl⟩
    · cases hnone
    · cases hclaim
      exact ⟨_, ⟨hactive, viewOf_update_self hv rfl rfl, howner, rfl, rfl⟩, rfl⟩

/-- Document 7 was published under the plain digest of its page, and is claimed again. -/
def legacyCalls : List WebpageCall :=
  [.create sampleCipher ⟨.ok, id⟩ 7 0 1 "key" none ["u"] true,
    .claimCandidate sampleCipher 9 10 7 1,
    .finish sampleCipher (fun _ => 2) 20 sampleClaim "text" sampleDigest
      (some [⟨0, "text", sampleMetadata⟩]) (some [[1]]),
    .enqueue sampleCipher 30 7 1]

/-- The row before the claim, and the claim. -/
def legacyDatabase : Database := (run WebpageCall.exec .empty legacyCalls).2

/-- The next claim of the document. -/
def legacyClaim : Outcome (Option WebpageClaim) :=
  claimCandidate sampleCipher.privateData 11 40 legacyDatabase 7 1

/-- What it hands to the worker. -/
def legacyReclaim : WebpageClaim := ⟨7, 1, 11, ["u"], some sampleDigest, .manual⟩

theorem legacyClaim_result : legacyClaim.result = .ok (some legacyReclaim) := by decide +kernel

/-- The page has not changed, yet its sync ends in `fail`. -/
theorem legacy_disagrees :
    (∃ v, Current legacyClaim.db legacyReclaim v) ∧
      sampleEnv.Provides legacyReclaim [samplePage] ∧
      sampleCipher.lookup (pageDigest sampleDigests.sha256 legacyReclaim.urls [samplePage])
        (fingerprintBinding legacyReclaim) = .ok sampleFingerprint ∧
      (process sampleDigests.sha256 sampleCipher sampleEnv (fun _ => 3) 50 legacyClaim.db
        legacyReclaim).1 = .failed (.ok true) ∧
      ¬ Agreement sampleDigests.sha256 sampleCipher sampleEnv (fun _ => 3) 50 legacyClaim.db
        legacyReclaim [samplePage] sampleFingerprint := by
  obtain ⟨v, hcurrent⟩ : ∃ v, Current legacyClaim.db legacyReclaim v :=
    current_of_claimed legacyClaim_result
  have hprovides : sampleEnv.Provides legacyReclaim [samplePage] := sampleEnv_provides rfl
  have hlookup : sampleCipher.lookup _ (fingerprintBinding legacyReclaim) = _ := sampleLookup rfl
  refine ⟨⟨v, hcurrent⟩, hprovides, hlookup, ?_, ?_⟩
  · rfl
  · refine not_agreement hcurrent hprovides hlookup ?_ (by decide +kernel)
    rw [hcurrent.storedHash_eq]
    decide +kernel

/-- The claim of the second sample sync, as it was handed out. -/
def skippingClaim : Outcome (Option WebpageClaim) :=
  claimCandidate sampleCipher.privateData 11 40 (sampleSyncRun 4).2 7 1

theorem skippingClaim_result : skippingClaim.result = .ok (some sampleReclaim) := by decide +kernel

theorem agreement_iff_sample :
    Agreement sampleDigests.sha256 sampleCipher sampleEnv (fun _ => 3) 50 skippingClaim.db
      sampleReclaim [samplePage] sampleFingerprint := by
  obtain ⟨v, hcurrent⟩ : ∃ v, Current skippingClaim.db sampleReclaim v :=
    current_of_claimed skippingClaim_result
  refine (agreement_iff hcurrent (sampleEnv_provides rfl) (by decide) (sampleLookup rfl)
    (by decide +kernel)).mpr ?_
  rw [hcurrent.storedHash_eq]
  decide +kernel

end PortRag.Webpages
