import PortRag.Webpages.Transitions
import PortRag.Foundation.JsonText

set_option autoImplicit false

/-!
# The webpage worker

`rag/webpages/worker.py`: what `_process` does with one claim.  What it waits for is a
`SyncEnv`: the answers of `claim_is_current`, the fetcher and the embedder, each in the
order of the calls.  A timeout or a cancellation is raised by one of them.
-/

namespace PortRag.Webpages

open PortRag.Foundation PortRag.Db PortRag.Security PortRag.Http PortRag.Ingest

/-- `MAX_DOCUMENT_BYTES`. -/
def maxDocumentBytes : Nat := 4 * 1024 * 1024

/-- `WebpagePage`. -/
structure WebpagePage where
  url : String
  text : String
  links : List String
  deriving DecidableEq, Inhabited

/-- The answers that one `_process` waits for. -/
structure SyncEnv where
  claimIsCurrent : Nat → Except Exc Bool
  fetch : Nat → String → Except Exc WebpagePage
  embedTexts : Nat → List String → Except Exc (List Embedding)

/-- The loop over `claim.urls`: `none` when the claim is no longer current. -/
def fetchPages (env : SyncEnv) : List String → Nat → Nat → Except Exc (Option (List WebpagePage))
  | [], _, _ => .ok (some [])
  | url :: rest, i, totalBytes => do
      let current ← env.claimIsCurrent i
      if !current then pure none
      else
        let page ← env.fetch i url
        if strip page.text = "" then
          .error (.webpageFetch "webpage has no readable server-rendered text")
        else
          let totalBytes := totalBytes + page.text.utf8ByteSize
          if maxDocumentBytes < totalBytes then
            .error (.webpageFetch "selected webpage content is too large")
          else
            let pages ← fetchPages env rest (i + 1) totalBytes
            pure (pages.map (page :: ·))

/-- `json.dumps` of the pairs of URL and text. -/
def dumpPairs (pairs : List (String × String)) : String :=
  String.ofList (listText (pairText (fun s : String => quote s.toList)
    (fun s : String => quote s.toList)) pairs)

/-- The pairs of URL and text that the digest covers. -/
def sourcePairs (urls : List String) (pages : List WebpagePage) : List (String × String) :=
  (urls.zip pages).map (fun z => (z.1, z.2.text))

/-- The digest of the fetched pages; `sha256` is the hexadecimal SHA-256 of a text. -/
def pageDigest (sha256 : String → String) (urls : List String) (pages : List WebpagePage) :
    String :=
  sha256 (dumpPairs (sourcePairs urls pages))

/-- The binding of the fingerprint. -/
def fingerprintBinding (claim : WebpageClaim) : StorageBinding :=
  ⟨claim.userId.str, claim.documentId.str, "webpage:content-fingerprint"⟩

/-- `"\n\n".join(page.text for page in pages)`. -/
def joinedText (pages : List WebpagePage) : String :=
  "\n\n".intercalate (pages.map (·.text))

/-! ## Chunks -/

/-- `range(0, n, step)`. -/
def rangeBy (n step : Nat) : List Nat :=
  (List.range ((n + step - 1) / step)).map (· * step)

/-- `text[start:start + width]`. -/
def sliceText (text : String) (start width : Nat) : String :=
  String.ofList ((text.toList.drop start).take width)

/-- The metadata of a chunk. -/
def chunkMetadata (url : String) (page : WebpagePage) : Json :=
  .obj [("source_url", .str url), ("url", .str page.url), ("source", .str "webpage")]

/-- One turn of the loop over the windows of a page. -/
def appendWindow (url : String) (page : WebpagePage) (chunks : List IngestChunk) (start : Nat) :
    List IngestChunk :=
  let text := strip (sliceText page.text start 1600)
  if text ≠ "" then chunks ++ [⟨chunks.length, text, chunkMetadata url page⟩] else chunks

/-- The loop that cuts the pages into chunks. -/
def pageChunks (urls : List String) (pages : List WebpagePage) : List IngestChunk :=
  (urls.zip pages).foldl (fun chunks z =>
    (rangeBy z.2.text.length 1440).foldl (appendWindow z.1 z.2) chunks) []

/-- The batches of 32 that the embedder gets. -/
def batches (chunks : List IngestChunk) : List (List IngestChunk) :=
  (rangeBy chunks.length 32).map (fun start => (chunks.drop start).take 32)

/-- The loop over the batches: `none` when the claim is no longer current. -/
def embedBatches (env : SyncEnv) (checked : Nat) :
    List (List IngestChunk) → Nat → Except Exc (Option (List Embedding))
  | [], _ => .ok (some [])
  | batch :: rest, i => do
      let current ← env.claimIsCurrent (checked + i)
      if !current then pure none
      else
        let vectors ← env.embedTexts i (batch.map (·.text))
        if vectors.length ≠ batch.length then .error (.valueError "embedding count mismatch")
        else
          let embeddings ← embedBatches env checked rest (i + 1)
          pure (embeddings.map (vectors ++ ·))

/-! ## One sync -/

/-- What a sync fetched, and the arguments it calls `finish` with. -/
structure Sync where
  pages : List WebpagePage
  content : String
  contentHash : String
  chunks : Option (List IngestChunk)
  embeddings : Option (List Embedding)

/-- `_process` up to its call of `finish`: `none` when the claim is no longer current. -/
def syncClaim (sha256 : String → String) (cipher : PrivateDataCipher) (env : SyncEnv)
    (claim : WebpageClaim) : Except Exc (Option Sync) := do
  let fetched ← fetchPages env claim.urls 0 0
  match fetched with
  | none => pure none
  | some pages =>
      let digest := pageDigest sha256 claim.urls pages
      let fingerprint ← cipher.lookup digest (fingerprintBinding claim)
      let content := joinedText pages
      if claim.contentHash = some digest ∨ claim.contentHash = some fingerprint then
        pure (some ⟨pages, content, fingerprint, none, none⟩)
      else
        let chunks := pageChunks claim.urls pages
        let embedded ← embedBatches env claim.urls.length (batches chunks) 0
        pure (embedded.map (fun embeddings =>
          ⟨pages, content, fingerprint, some chunks, some embeddings⟩))

/-- What the handlers of `_process` pass to `fail`; a cancellation passes through. -/
def failure : Exc → Option String
  | .webpageFetch message => some message
  | .embedding message => some message
  | .timeout => some "webpage synchronization timed out"
  | .cancelled => none
  | _ => some "webpage synchronization failed"

/-- How a sync ended. -/
inductive SyncEnd where
  | stopped
  | finished (accepted : Bool)
  | failed (result : Except Exc Bool)
  | raised (e : Exc)
  deriving Inhabited

/-- A handler of `_process`. -/
def handle (pd : PrivateData) (now : Time) (db : Database) (claim : WebpageClaim) (e : Exc) :
    SyncEnd × Database :=
  match failure e with
  | none => (.raised e, db)
  | some message =>
      let o := fail pd now db claim message
      (.failed o.result, o.db)

/-- `_process`, with the database as its last calls find it. -/
def process (sha256 : String → String) (cipher : PrivateDataCipher) (env : SyncEnv)
    (uuid4 : Nat → Uuid) (now : Time) (db : Database) (claim : WebpageClaim) :
    SyncEnd × Database :=
  match syncClaim sha256 cipher env claim with
  | .error e => handle cipher.privateData now db claim e
  | .ok none => (.stopped, db)
  | .ok (some sync) =>
      let o := finish cipher.privateData uuid4 now db claim sync.content sync.contentHash
        sync.chunks sync.embeddings
      match o.result with
      | .ok accepted => (.finished accepted, o.db)
      | .error e => handle cipher.privateData now o.db claim e

/-! ## The windows of the pages -/

/-- The windows of a text, 1600 wide and 1440 apart, without the blank ones. -/
def windows (text : String) : List String :=
  ((rangeBy text.length 1440).map (fun start => strip (sliceText text start 1600))).filter (· ≠ "")

/-- The numbered windows of the fetched texts, each with the URL it comes from. -/
def windowing (pairs : List (String × String)) : List (Int × String × Except Exc Json) :=
  (pairs.flatMap (fun p => (windows p.2).map (fun w => (p.1, w)))).zipIdx.map
    (fun z => (z.2, z.1.2, .ok (.str z.1.1)))

/-- The number, text and source URL of a chunk, as a preview shows them. -/
def chunkSource (chunk : IngestChunk) : Int × String × Except Exc Json :=
  (chunk.seq, chunk.text, sourceUrl chunk.metadata)

theorem sourceUrl_chunkMetadata (url : String) (page : WebpagePage) :
    sourceUrl (chunkMetadata url page) = .ok (.str url) := by
  simp [sourceUrl, chunkMetadata, Json.get?]

/-- The chunks of numbered windows. -/
def windowChunk (z : (String × WebpagePage × String) × Nat) : IngestChunk :=
  ⟨z.2, z.1.2.2, chunkMetadata z.1.1 z.1.2.1⟩

theorem foldl_appendWindow (url : String) (page : WebpagePage) (starts : List Nat)
    (chunks : List IngestChunk) :
    starts.foldl (appendWindow url page) chunks =
      chunks ++ ((((starts.map (fun start => strip (sliceText page.text start 1600))).filter
        (· ≠ "")).map (fun w => (url, page, w))).zipIdx chunks.length).map windowChunk := by
  induction starts generalizing chunks with
  | nil => simp
  | cons start rest ih =>
      rw [List.foldl_cons, ih, List.map_cons, appendWindow]
      by_cases hblank : strip (sliceText page.text start 1600) = ""
      · simp [hblank]
      · simp [hblank, windowChunk]

/-- The loop numbers the windows of all pages in order. -/
theorem pageChunks_eq (urls : List String) (pages : List WebpagePage) :
    pageChunks urls pages =
      (((urls.zip pages).flatMap (fun z => (windows z.2.text).map (fun w => (z.1, z.2, w)))).zipIdx).map
        windowChunk := by
  have hloop : ∀ (zs : List (String × WebpagePage)) (chunks : List IngestChunk),
      zs.foldl (fun chunks z =>
          (rangeBy z.2.text.length 1440).foldl (appendWindow z.1 z.2) chunks) chunks =
        chunks ++ ((zs.flatMap (fun z => (windows z.2.text).map (fun w => (z.1, z.2, w)))).zipIdx
          chunks.length).map windowChunk := by
    intro zs
    induction zs with
    | nil => simp
    | cons z rest ih =>
        intro chunks
        rw [List.foldl_cons, ih, foldl_appendWindow, List.flatMap_cons, List.zipIdx_append,
          List.map_append, List.append_assoc, windows, List.length_append, List.length_map,
          List.length_zipIdx]
  have hall := hloop (urls.zip pages) []
  rw [List.nil_append, List.length_nil] at hall
  exact hall

/-- What a preview shows of the chunks of a sync. -/
theorem pageChunks_source (urls : List String) (pages : List WebpagePage) :
    (pageChunks urls pages).map chunkSource = windowing (sourcePairs urls pages) := by
  have hpairs : (urls.zip pages).flatMap (fun z => (windows z.2.text).map (fun w => (z.1, w))) =
      ((urls.zip pages).flatMap (fun z => (windows z.2.text).map (fun w => (z.1, z.2, w)))).map
        (fun t => (t.1, t.2.2)) := by
    simp [List.map_flatMap, Function.comp_def]
  rw [pageChunks_eq, windowing, sourcePairs, List.map_map, List.flatMap_map, hpairs,
    List.zipIdx_map, List.map_map]
  apply List.map_congr_left
  intro z _
  simp [chunkSource, windowChunk, sourceUrl_chunkMetadata]

/-- The joined text depends on the pairs only. -/
theorem joinedText_eq {urls : List String} {pages : List WebpagePage}
    (hlength : pages.length = urls.length) :
    joinedText pages = "\n\n".intercalate ((sourcePairs urls pages).map (·.2)) := by
  have htexts : (sourcePairs urls pages).map (·.2) = pages.map (·.text) := by
    calc (sourcePairs urls pages).map (·.2)
        = ((urls.zip pages).map Prod.snd).map (·.text) := by simp [sourcePairs]
      _ = pages.map (·.text) := by rw [List.map_snd_zip (le_of_eq hlength)]
  rw [joinedText, htexts]

/-- The dumped text determines the pairs. -/
theorem dumpPairs_injective : Function.Injective dumpPairs := by
  have hquote : SelfDelimiting (fun s : String => quote s.toList) := by
    intro a b rest rest' h
    obtain ⟨htext, hrest⟩ := quote_selfDelimiting _ _ _ _ h
    exact ⟨String.toList_inj.mp htext, hrest⟩
  have hpair := pairText_selfDelimiting hquote hquote
  have hlist := listText_selfDelimiting hpair (fun a => ⟨_, _, rfl, by decide⟩)
  intro a b hab
  exact hlist.injective (String.ofList_injective hab)

/-! ## What a sync hands over -/

theorem fetchPages_length {env : SyncEnv} {urls : List String} {i totalBytes : Nat}
    {pages : List WebpagePage} (h : fetchPages env urls i totalBytes = .ok (some pages)) :
    pages.length = urls.length := by
  induction urls generalizing i totalBytes pages with
  | nil =>
      cases h
      rfl
  | cons url rest ih =>
      obtain ⟨current, -, h⟩ := bind_eq_ok.mp h
      split at h
      · cases pure_eq_ok.mp h
      obtain ⟨page, -, h⟩ := bind_eq_ok.mp h
      split at h
      · cases h
      dsimp only at h
      split at h
      · cases h
      obtain ⟨fetched, hfetched, h⟩ := bind_eq_ok.mp h
      obtain ⟨tail, rfl, rfl⟩ := Option.map_eq_some_iff.mp (pure_eq_ok.mp h)
      simp [ih hfetched]

/-- The pages of a completed sync are those that it fetched. -/
theorem syncClaim_fetched {sha256 : String → String} {cipher : PrivateDataCipher} {env : SyncEnv}
    {claim : WebpageClaim} {sync : Sync}
    (h : syncClaim sha256 cipher env claim = .ok (some sync)) :
    fetchPages env claim.urls 0 0 = .ok (some sync.pages) := by
  obtain ⟨fetched, hfetched, h⟩ := bind_eq_ok.mp h
  cases fetched with
  | none => cases pure_eq_ok.mp h
  | some pages =>
      obtain ⟨fingerprint, -, h⟩ := bind_eq_ok.mp h
      split at h
      · cases pure_eq_ok.mp h
        exact hfetched
      · obtain ⟨embedded, -, h⟩ := bind_eq_ok.mp h
        obtain ⟨embeddings, rfl, rfl⟩ := Option.map_eq_some_iff.mp (pure_eq_ok.mp h)
        exact hfetched

/-- What a completed sync computed. -/
theorem syncClaim_ok {sha256 : String → String} {cipher : PrivateDataCipher} {env : SyncEnv}
    {claim : WebpageClaim} {sync : Sync}
    (h : syncClaim sha256 cipher env claim = .ok (some sync)) :
    sync.pages.length = claim.urls.length ∧ sync.content = joinedText sync.pages ∧
      cipher.lookup (pageDigest sha256 claim.urls sync.pages) (fingerprintBinding claim)
        = .ok sync.contentHash ∧
      ((sync.chunks = none ∧ sync.embeddings = none) ∨
        sync.chunks = some (pageChunks claim.urls sync.pages)) := by
  obtain ⟨fetched, hfetched, h⟩ := bind_eq_ok.mp h
  cases fetched with
  | none => cases pure_eq_ok.mp h
  | some pages =>
      have hlength := fetchPages_length hfetched
      obtain ⟨fingerprint, hlookup, h⟩ := bind_eq_ok.mp h
      split at h
      · cases pure_eq_ok.mp h
        exact ⟨hlength, rfl, hlookup, .inl ⟨rfl, rfl⟩⟩
      · obtain ⟨embedded, -, h⟩ := bind_eq_ok.mp h
        obtain ⟨embeddings, rfl, rfl⟩ := Option.map_eq_some_iff.mp (pure_eq_ok.mp h)
        exact ⟨hlength, rfl, hlookup, .inr rfl⟩

/-! ## The checks of the claim -/

/-- The checks ask the repository, each on the database that it finds. -/
def SyncEnv.Checks (env : SyncEnv) (claim : WebpageClaim) (world : Nat → Database) : Prop :=
  ∀ i, env.claimIsCurrent i = .ok (Webpages.claimIsCurrent (world i) claim)

theorem current_of_fetchPages {env : SyncEnv} {urls : List String} {i totalBytes : Nat}
    {pages : List WebpagePage} (h : fetchPages env urls i totalBytes = .ok (some pages)) :
    ∀ k < urls.length, env.claimIsCurrent (i + k) = .ok true := by
  induction urls generalizing i totalBytes pages with
  | nil => exact fun k hk => absurd hk (Nat.not_lt_zero k)
  | cons url rest ih =>
      obtain ⟨current, hcurrent, h⟩ := bind_eq_ok.mp h
      split at h
      · cases pure_eq_ok.mp h
      next htrue =>
      obtain ⟨page, -, h⟩ := bind_eq_ok.mp h
      split at h
      · cases h
      dsimp only at h
      split at h
      · cases h
      obtain ⟨fetched, hfetched, h⟩ := bind_eq_ok.mp h
      obtain ⟨tail, rfl, -⟩ := Option.map_eq_some_iff.mp (pure_eq_ok.mp h)
      intro k hk
      rw [Bool.not_eq_true', Bool.not_eq_false] at htrue
      cases k with
      | zero => exact hcurrent.trans (congrArg Except.ok htrue)
      | succ k =>
          rw [Nat.add_succ, ← Nat.succ_add]
          exact ih hfetched k (Nat.lt_of_succ_lt_succ hk)

/-- A claim is current while its owner is admitted and the row of his webpage is running under its
token. -/
theorem claimIsCurrent_iff {db : Database} {claim : WebpageClaim} :
    claimIsCurrent db claim = true ↔ claim.userId ∉ db.erasedOwners ∧
      ∃ document page, select db claim.documentId claim.userId = some (document, page) ∧
        page.syncStatus = .running ∧ page.claimToken = some claim.token := by
  unfold claimIsCurrent lockActiveOwner
  by_cases herased : claim.userId ∈ db.erasedOwners
  · simp [herased]
  · rw [if_neg herased]
    dsimp only
    rw [Option.any_eq_true]
    simp [herased, holds]

/-- A completed sync has found its claim current in front of every page that it fetched. -/
theorem current_of_syncClaim {sha256 : String → String} {cipher : PrivateDataCipher}
    {env : SyncEnv} {claim : WebpageClaim} {sync : Sync} {world : Nat → Database}
    (hchecks : env.Checks claim world) (h : syncClaim sha256 cipher env claim = .ok (some sync)) :
    ∀ i < claim.urls.length, claim.userId ∉ (world i).erasedOwners ∧
      ∃ document page, select (world i) claim.documentId claim.userId = some (document, page) ∧
        page.syncStatus = .running ∧ page.claimToken = some claim.token := by
  intro i hi
  have hcurrent := current_of_fetchPages (syncClaim_fetched h) i hi
  rw [Nat.zero_add, hchecks i] at hcurrent
  exact claimIsCurrent_iff.mp (Except.ok.inj hcurrent)

end PortRag.Webpages
