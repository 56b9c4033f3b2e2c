import PortRag.Webpages.Runs
import PortRag.Webpages.Worker

set_option autoImplicit false

/-!
# Syncs that skip and syncs that publish

A sync whose pages are those of the last publication writes nothing.  In every run in which
`finish` is called by workers, a document shows what its last successful sync fetched,
whichever way the sync went.
-/

namespace PortRag.Webpages

open PortRag.Foundation PortRag.Db PortRag.Security PortRag.Http PortRag.Ingest

/-! ## Runs with workers -/

/-- The digests of one run: which text a SHA-256 digest and which digest a fingerprint was
made of.  That both are functions says that no two of the run collide. -/
structure Digests where
  sha256 : String → String
  hashed : String → Option String
  fingerprinted : String → StorageBinding → Option String

/-- The digest and the fingerprint of this sync are among those of the run. -/
structure Digests.Records (D : Digests) (claim : WebpageClaim) (sync : Sync) : Prop where
  hashed : D.hashed (pageDigest D.sha256 claim.urls sync.pages)
    = some (dumpPairs (sourcePairs claim.urls sync.pages))
  fingerprinted : D.fingerprinted sync.contentHash (fingerprintBinding claim)
    = some (pageDigest D.sha256 claim.urls sync.pages)

/-- The calls of a run: methods of the repository, and the `finish` that ends a sync. -/
inductive SyncCall where
  | method (m : WebpageMethod)
  | finish (lookup : PrivateDataCipher) (env : SyncEnv) (claim : WebpageClaim) (sync : Sync)
      (cipher : PrivateDataCipher) (uuid4 : Nat → Uuid) (now : Time)

/-- The call of the repository. -/
def SyncCall.toMethod : SyncCall → WebpageMethod
  | .method m => m
  | .finish _ _ claim sync cipher uuid4 now =>
      .call (.finish cipher uuid4 now claim sync.content sync.contentHash sync.chunks
        sync.embeddings)

/-- One step of a run: `finish` is called by workers only. -/
def SyncCall.Runs (D : Digests) (opens : Opens) (db : Database) (c : SyncCall)
    (a : WebpageAnswer) (db' : Database) : Prop :=
  c.toMethod.Runs opens db a db' ∧
    match c with
    | .method m => ∀ cipher uuid4 now claim content contentHash chunks embeddings,
        m ≠ .call (.finish cipher uuid4 now claim content contentHash chunks embeddings)
    | .finish lookup env claim sync _ _ _ =>
        syncClaim D.sha256 lookup env claim = .ok (some sync) ∧ D.Records claim sync

/-! ## What a document shows -/

/-- The content and the chunks of the view are those of these fetched texts. -/
structure PageView.Shows (opens : Opens) (v : PageView) (pairs : List (String × String)) :
    Prop where
  content : TextStands opens v.page.content (v.binding "webpage:content")
    ("\n\n".intercalate (pairs.map (·.2)))
  chunks : ∃ chunks embeddings,
    RowsStand opens v.document.userId.str v.document.id chunks embeddings v.chunks ∧
      chunks.map chunkSource = windowing pairs

/-- A stored fingerprint is that of what the document shows. -/
def PageView.Fingerprinted (D : Digests) (opens : Opens) (v : PageView) : Prop :=
  ∀ contentHash, v.page.contentHash = some contentHash → ∃ pairs,
    D.fingerprinted contentHash (v.binding "webpage:content-fingerprint")
      = some (D.sha256 (dumpPairs pairs)) ∧
    D.hashed (D.sha256 (dumpPairs pairs)) = some (dumpPairs pairs) ∧ v.Shows opens pairs

section Runs

variable {D : Digests} {opens : Opens} {start db db' : Database} {c : SyncCall}
  {a : WebpageAnswer} {v v' : PageView} {move : Move}

/-- The arguments of a sync's publication show the fetched texts. -/
theorem shows_of_holds {lookup : PrivateDataCipher} {env : SyncEnv} {claim : WebpageClaim}
    {sync : Sync} {chunks : List IngestChunk} {embeddings : List Embedding}
    (hsync : syncClaim D.sha256 lookup env claim = .ok (some sync))
    (hchunks : sync.chunks = some chunks)
    (h : v.Holds opens ⟨sync.content, sync.contentHash, chunks, embeddings⟩) :
    v.Shows opens (sourcePairs claim.urls sync.pages) := by
  obtain ⟨hlength, hcontent, -, ⟨hnone, -⟩ | hcut⟩ := syncClaim_ok hsync
  · rw [hchunks] at hnone
    cases hnone
  · rw [hchunks] at hcut
    cases hcut
    constructor
    · rw [← joinedText_eq hlength, ← hcontent]
      exact h.content
    · exact ⟨_, _, h.chunks, pageChunks_source claim.urls sync.pages⟩

/-- Only a publication changes what a document shows and its fingerprint. -/
theorem fingerprinted_step (h : PageMove opens (some v) move (some v'))
    (hmove : ∀ token args, move ≠ .published token args) (hv : v.Fingerprinted D opens) :
    v'.Fingerprinted D opens := by
  obtain ⟨hhash, hcontent, hchunks, hid, howner⟩ := unpublished_step h hmove
  intro contentHash hstored
  rw [hhash] at hstored
  obtain ⟨pairs, hfingerprint, hhashed, hshows⟩ := hv contentHash hstored
  refine ⟨pairs, ?_, hhashed, ?_, ?_⟩
  · rw [PageView.binding, hid, howner]
    exact hfingerprint
  · rw [PageView.binding, hcontent, hid, howner]
    exact hshows.content
  · rw [hchunks, hid, howner]
    exact hshows.chunks

theorem everywhere_of_moves {I : PageView → Prop} {id : Uuid} (hmove : Moves opens db id move db')
    (h : Everywhere I db) (hself : ∀ v', viewOf db' id = some v' → I v') : Everywhere I db' := by
  intro other v' hv'
  by_cases hother : other = id
  · subst hother
    exact hself v' hv'
  · rw [hmove.others other hother] at hv'
    exact h other v' hv'

/-- A move that publishes nothing keeps the fingerprints. -/
theorem fingerprinted_moves {id : Uuid} (hmove : Moves opens db id move db')
    (hquiet : ∀ token args, move ≠ .published token args)
    (h : Everywhere (PageView.Fingerprinted D opens) db) :
    Everywhere (PageView.Fingerprinted D opens) db' := by
  refine everywhere_of_moves hmove h fun v' hv' => ?_
  have hrows := hmove.rows
  rw [hv'] at hrows
  cases hv : viewOf db id with
  | none =>
      rw [hv] at hrows
      cases hrows with
      | created hnew =>
          intro contentHash hstored
          rw [hnew.page] at hstored
          cases hstored
  | some v =>
      rw [hv] at hrows
      exact fingerprinted_step hrows hquiet (h id v hv)

/-- What an accepted `finish` of a sync leaves: a document that shows what was fetched, with
its fingerprint. -/
theorem finish_moves {lookup cipher : PrivateDataCipher} {env : SyncEnv} {claim : WebpageClaim}
    {sync : Sync} {uuid4 : Nat → Uuid} {now : Time} {o : Outcome Bool} (huses : cipher.Uses opens)
    (ho : finish cipher.privateData uuid4 now db claim sync.content sync.contentHash sync.chunks
      sync.embeddings = o)
    (hsync : syncClaim D.sha256 lookup env claim = .ok (some sync)) (hrecords : D.Records claim sync)
    (h : Everywhere (PageView.Fingerprinted D opens) db) :
    (o.db = db ∧ o.result ≠ .ok true) ∨
      Everywhere (PageView.Fingerprinted D opens) o.db ∧ ∃ v',
        viewOf o.db claim.documentId = some v' ∧
        v'.page.contentHash = some sync.contentHash ∧
        v'.binding "webpage:content-fingerprint" = fingerprintBinding claim := by
  rcases finish_spec huses ho with hidle | ⟨-, v, haccepts, hways⟩
  · exact .inl hidle
  have hbinding : v.binding "webpage:content-fingerprint" = fingerprintBinding claim := by
    rw [PageView.binding, fingerprintBinding, haccepts.owner, viewOf_document_id haccepts.view]
  rcases hways with ⟨hsame, hmove⟩ | ⟨-, chunks, embeddings, hchunks, -, hmove⟩
  · refine .inr ⟨fingerprinted_moves hmove (by simp) h, ?_⟩
    have hrows := hmove.rows
    rw [haccepts.view] at hrows
    generalize hv' : viewOf o.db claim.documentId = after at hrows
    cases hrows with
    | confirmed => exact ⟨_, rfl, hsame, hbinding⟩
  · have hrows := hmove.rows
    rw [haccepts.view] at hrows
    generalize hv' : viewOf o.db claim.documentId = after at hrows
    cases hrows with
    | @published _ _ _ stored rows now _ _ _ _ hholds =>
        refine .inr ⟨everywhere_of_moves hmove h fun w hw => ?_, _, rfl, hholds.contentHash, hbinding⟩
        rw [hv'] at hw
        cases hw
        intro contentHash hstored
        rw [hholds.contentHash] at hstored
        cases hstored
        refine ⟨sourcePairs claim.urls sync.pages, ?_, hrecords.hashed,
          shows_of_holds hsync hchunks hholds⟩
        exact (congrArg (D.fingerprinted sync.contentHash) hbinding).trans hrecords.fingerprinted

/-- Fingerprints are kept by every step. -/
theorem fingerprinted_runs (hrun : SyncCall.Runs D opens db c a db')
    (h : Everywhere (PageView.Fingerprinted D opens) db) :
    Everywhere (PageView.Fingerprinted D opens) db' := by
  obtain ⟨hmethod, hcall⟩ := hrun
  cases c with
  | method m =>
      rcases hmethod.cases with ⟨rfl, -⟩ | ⟨c, hm, huses, hexec⟩
      · exact h
      rcases c.step huses hexec with ⟨rfl, -⟩ | ⟨id, move, hdoes, hmove⟩
      · exact h
      refine fingerprinted_moves hmove ?_ h
      rintro token args rfl
      cases hdoes
      rcases hm with rfl | ⟨_, _, _, _, _, _, _, _, hturn⟩
      · exact hcall _ _ _ _ _ _ _ _ rfl
      · cases hturn
  | finish lookup env claim sync cipher uuid4 now =>
      obtain ⟨huses, hexec⟩ := hmethod
      have huses : cipher.Uses opens := huses
      simp only [SyncCall.toMethod, WebpageMethod.exec, WebpageCall.exec, Prod.mk.injEq] at hexec
      obtain ⟨-, hdb'⟩ := hexec
      rcases finish_moves huses rfl hcall.1 hcall.2 h with ⟨hdb, -⟩ | ⟨hkept, -⟩
      · rw [← hdb', hdb]
        exact h
      · rw [← hdb']
        exact hkept

/-- In every run that starts without webpage documents and in which workers call `finish`: a
successful sync leaves a document whose content is the fetched texts joined by a blank line
and whose chunks are the windows of these texts, whether it replaced them or found nothing
new. -/
theorem sync_shows_fetched {steps : List (Step Database SyncCall WebpageAnswer)}
    (hstart : start.webpages.rows = []) (h : Trace (SyncCall.Runs D opens) start steps db) :
    ∀ st ∈ steps, ∀ lookup env claim sync cipher uuid4 now,
      st.call = .finish lookup env claim sync cipher uuid4 now → st.answer = .done (.ok true) →
      ∃ v, viewOf st.after claim.documentId = some v ∧
        TextStands opens v.page.content (v.binding "webpage:content") (joinedText sync.pages) ∧
        ∃ chunks embeddings,
          RowsStand opens v.document.userId.str v.document.id chunks embeddings v.chunks ∧
          chunks.map chunkSource = windowing (sourcePairs claim.urls sync.pages) := by
  intro st hst lookup env claim sync cipher uuid4 now hcall hanswer
  have hkept : Everywhere (PageView.Fingerprinted D opens) st.before :=
    (h.invariant_at (I := Everywhere (PageView.Fingerprinted D opens))
      (Everywhere.of_noWebpages hstart) (fun hdb hrun => fingerprinted_runs hrun hdb) hst).1
  have hrun := h.step_of_mem hst
  rw [hcall, hanswer] at hrun
  obtain ⟨⟨huses, hexec⟩, hsync, hrecords⟩ := hrun
  have huses : cipher.Uses opens := huses
  simp only [SyncCall.toMethod, WebpageMethod.exec, WebpageCall.exec, Prod.mk.injEq,
    WebpageAnswer.done.injEq] at hexec
  obtain ⟨hresult, hafter⟩ := hexec
  rcases finish_moves huses rfl hsync hrecords hkept with
    ⟨-, hrefused⟩ | ⟨hkept', v, hv, hhash, hbinding⟩
  · exact absurd hresult hrefused
  rw [hafter] at hkept' hv
  obtain ⟨pairs, hfingerprint, hhashed, hshows⟩ := hkept' _ v hv sync.contentHash hhash
  -- one fingerprint, so one digest, so one text, so the same pages
  rw [hbinding, hrecords.fingerprinted] at hfingerprint
  have hdigest := Option.some.inj hfingerprint
  rw [← hdigest, hrecords.hashed] at hhashed
  obtain rfl := dumpPairs_injective (Option.some.inj hhashed)
  refine ⟨v, hv, ?_, hshows.chunks⟩
  rw [joinedText_eq (syncClaim_ok hsync).1]
  exact hshows.content

end Runs

/-! ## A sample run

The cipher in the clear, taught one more value: the metadata of the only chunk. -/

/-- The page that the sample syncs fetch. -/
def samplePage : WebpagePage := ⟨"u", "text", []⟩

/-- The metadata of its only chunk. -/
def sampleMetadata : Json := chunkMetadata "u" samplePage

/-- The ciphertext of the sample metadata. -/
def sampleTag (binding : StorageBinding) : String := String.ofList (clearTag binding ++ ['m'])

/-- Whether a value is these metadata. -/
def isSampleMetadata : Json → Bool
  | .obj [("source_url", .str "u"), ("url", .str "u"), ("source", .str "webpage")] => true
  | _ => false

theorem eq_sampleMetadata {value : Json} (h : isSampleMetadata value = true) :
    value = sampleMetadata := by
  unfold isSampleMetadata at h
  split at h
  · rfl
  · cases h

/-- The key material in the clear, with the ciphertext of the sample metadata. -/
def sampleOpens : Opens := fun ciphertext binding =>
  if ciphertext = sampleTag binding then some sampleMetadata else clearOpens ciphertext binding

/-- The text that the sample syncs hash. -/
def sampleSource : String := "[[\"u\",\"text\"]]"

/-- Its SHA-256 in hexadecimal. -/
def sampleDigest : String := "9c767604527ddc8d3b937082238a987b6297c28209bff4ae6d5a4c8cb87cbed4"

/-- A fingerprint of this digest. -/
def sampleFingerprint : String := "vault:v1:nHZ2BFJ93I07k3CCI4qYe2KXwoIJv/SubVpMjLh8vtQ="

/-- The cipher in the clear, with the sample metadata and the fingerprint of the sample digest. -/
def sampleCipher : PrivateDataCipher where
  encrypt := fun value binding =>
    if isSampleMetadata value then .ok (sampleTag binding) else clearCipher.encrypt value binding
  decrypt := fun ciphertext binding =>
    match sampleOpens ciphertext binding with
    | some value => .ok value
    | none => .error .privateDataUnavailable
  lookup := fun value binding =>
    if value = sampleDigest then .ok sampleFingerprint else clearCipher.lookup value binding

/-- The cipher in the clear does not use the new ciphertext. -/
theorem ne_sampleTag {value : Json} {binding : StorageBinding} {ciphertext : String}
    (h : clearCipher.encrypt value binding = .ok ciphertext) : ciphertext ≠ sampleTag binding := by
  obtain ⟨text, htext, rfl⟩ := clearCipher_encrypt h
  intro heq
  have htail := List.append_cancel_left (String.ofList_injective heq)
  have hdecoded := clearDecode_encode htext
  rw [htail] at hdecoded
  simp [clearDecode] at hdecoded

/-- The cipher of the sample opens what it has encrypted, under its own binding only. -/
theorem sampleCipher_uses : sampleCipher.Uses sampleOpens where
  encrypt_prefix := by
    intro value binding ciphertext h
    simp only [sampleCipher] at h
    split at h
    · cases h
      exact hasCipherPrefix_clearTag binding ['m']
    · exact clearCipher_uses.encrypt_prefix h
  encrypt_opens := by
    intro value binding ciphertext h
    simp only [sampleCipher] at h
    split at h
    · next hmetadata =>
        cases h
        rw [sampleOpens, if_pos rfl, eq_sampleMetadata hmetadata]
    · rw [sampleOpens, if_neg (ne_sampleTag h)]
      exact clearCipher_uses.encrypt_opens h
  decrypt_opens := by
    intro value binding ciphertext h
    simp only [sampleCipher] at h
    split at h
    · next hopens =>
        cases h
        exact hopens
    · cases h
  decrypt_error := by
    intro value binding ciphertext e hopens h
    simp only [sampleCipher, hopens] at h
    cases h

/-- The digests of the sample: its text, its digest and its fingerprint determine each other. -/
def sampleDigests : Digests where
  sha256 := fun text => if text = sampleSource then sampleDigest else text
  hashed := fun digest => if digest = sampleDigest then some sampleSource else none
  fingerprinted := fun fingerprint _ =>
    if fingerprint = sampleFingerprint then some sampleDigest else none

/-- A sync that fetches the sample page, and embeds its text. -/
def sampleEnv : SyncEnv where
  claimIsCurrent := fun _ => .ok true
  fetch := fun _ _ => .ok samplePage
  embedTexts := fun _ texts => .ok (texts.map (fun _ => [1]))

/-- The first sync of the sample publishes. -/
def samplePublishing : Sync :=
  ⟨[samplePage], "text", sampleFingerprint, some [⟨0, "text", sampleMetadata⟩],
    some [[1]]⟩

/-- The claim of the second sync. -/
def sampleReclaim : WebpageClaim :=
  ⟨7, 1, 11, ["u"], some sampleFingerprint, .manual⟩

/-- The second sync of the sample finds nothing new. -/
def sampleSkipping : Sync := ⟨[samplePage], "text", sampleFingerprint, none, none⟩

/-- The second sync of the sample. -/
def sampleFinish : SyncCall :=
  .finish sampleCipher sampleEnv sampleReclaim sampleSkipping sampleCipher (fun _ => 3) 50

/-- Document 7 is registered and synced, and synced again on request. -/
def sampleSyncs : List SyncCall :=
  [.method (.call (.create sampleCipher ⟨.ok, id⟩ 7 0 1 "key" none ["u"] true)),
    .method (.call (.claimCandidate sampleCipher 9 10 7 1)),
    .finish sampleCipher sampleEnv sampleClaim samplePublishing sampleCipher (fun _ => 2) 20,
    .method (.call (.enqueue sampleCipher 30 7 1)),
    .method (.call (.claimCandidate sampleCipher 11 40 7 1)),
    sampleFinish]

/-- The run of the first `n` calls. -/
def sampleSyncRun (n : Nat) : List (Step Database SyncCall WebpageAnswer) × Database :=
  run (fun c => c.toMethod.exec) .empty (sampleSyncs.take n)

theorem sampleRecords {claim : WebpageClaim} {sync : Sync} (hurls : claim.urls = ["u"])
    (hpages : sync.pages = [samplePage]) (hhash : sync.contentHash = sampleFingerprint) :
    sampleDigests.Records claim sync := by
  constructor
  · rw [hurls, hpages]
    decide +kernel
  · rw [hurls, hpages, hhash]
    simp only [sampleDigests, if_true]
    decide +kernel

theorem sampleSyncRun_trace (n : Nat) :
    Trace (SyncCall.Runs sampleDigests sampleOpens) .empty (sampleSyncRun n).1
      (sampleSyncRun n).2 := by
  refine run_trace fun c hc db => ?_
  have hmem := List.mem_of_mem_take hc
  simp only [sampleSyncs, List.mem_cons, List.not_mem_nil, or_false] at hmem
  rcases hmem with rfl | rfl | rfl | rfl | rfl | rfl
  · exact ⟨⟨sampleCipher_uses, rfl⟩, by simp⟩
  · exact ⟨⟨sampleCipher_uses, rfl⟩, by simp⟩
  · exact ⟨⟨sampleCipher_uses, rfl⟩, rfl, sampleRecords rfl rfl rfl⟩
  · exact ⟨⟨sampleCipher_uses, rfl⟩, by simp⟩
  · exact ⟨⟨sampleCipher_uses, rfl⟩, by simp⟩
  · exact ⟨⟨sampleCipher_uses, rfl⟩, rfl, sampleRecords rfl rfl rfl⟩

theorem sync_shows_fetched_sample : ∃ v, viewOf (sampleSyncRun 6).2 7 = some v ∧
    TextStands sampleOpens v.page.content (v.binding "webpage:content") (joinedText [samplePage]) ∧
    ∃ chunks embeddings,
      RowsStand sampleOpens v.document.userId.str v.document.id chunks embeddings v.chunks ∧
      chunks.map chunkSource = windowing (sourcePairs ["u"] [samplePage]) := by
  have haccepted : (sampleFinish.toMethod.exec (sampleSyncRun 5).2).1.accepted = true := by
    decide +kernel
  have hanswer : (sampleFinish.toMethod.exec (sampleSyncRun 5).2).1 = .done (.ok true) :=
    congrArg WebpageAnswer.done (WebpageAnswer.ok_of_accepted_done haccepted)
  have hlast : (sampleSyncRun 6).1 = (sampleSyncRun 5).1 ++ [⟨(sampleSyncRun 5).2, sampleFinish,
      (sampleFinish.toMethod.exec (sampleSyncRun 5).2).1, (sampleSyncRun 6).2⟩] := rfl
  exact sync_shows_fetched rfl (sampleSyncRun_trace 6) _
    (hlast ▸ List.mem_append_right _ List.mem_cons_self) _ _ sampleReclaim sampleSkipping _ _ _ rfl
    hanswer

end PortRag.Webpages
