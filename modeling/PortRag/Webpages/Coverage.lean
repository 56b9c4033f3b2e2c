import PortRag.Foundation.Pieces
import PortRag.Webpages.Worker

set_option autoImplicit false

/-!
# What the chunks of a sync cover

The worker cuts each page into trimmed windows that overlap, leaves out the blank ones and
numbers the rest over all pages.  Every character of a page that is no space is in a chunk of
that page, and the embeddings that the batches return belong to the chunks one by one, so the
repository accepts them.
-/

namespace PortRag.Webpages

open PortRag.Foundation PortRag.Db PortRag.Security PortRag.Http PortRag.Ingest

/-! ## Windows that are not blank -/

/-- The text of a window. -/
def windowText (text : String) (start : Nat) : String := strip (sliceText text start 1600)

/-- The starts of the windows that are not blank. -/
def windowStarts (text : String) : List Nat :=
  (rangeBy text.length 1440).filter (fun start => windowText text start ≠ "")

theorem windows_eq (text : String) : windows text = (windowStarts text).map (windowText text) := by
  rw [windows, windowStarts, List.filter_map]
  rfl

theorem mem_windowStarts {text : String} {start : Nat} :
    start ∈ windowStarts text ↔ (1440 ∣ start ∧ start < text.length) ∧ windowText text start ≠ "" := by
  rw [windowStarts, List.mem_filter, decide_eq_true_eq]
  exact and_congr_left' (mem_multiples (by decide))

/-- A chunk with this text stands in the window that starts there, and covers the position. -/
def Covers (text : String) (start : Nat) (chunk : String) (position : Nat) : Prop :=
  ∃ before after, text.toList = before ++ chunk.toList ++ after ∧
    start ≤ before.length ∧ before.length + chunk.length ≤ start + 1600 ∧
    before.length ≤ position ∧ position < before.length + chunk.length

theorem windowText_spec (text : String) (start : Nat) : ∃ before after,
    (text.toList.drop start).take 1600 = before ++ (windowText text start).toList ++ after ∧
      (∀ c ∈ before, isSpace c = true) ∧ ∀ c ∈ after, isSpace c = true := by
  rw [windowText, strip, String.toList_ofList, sliceText, String.toList_ofList]
  exact trim_spec isSpace _

/-- What is left of a window is not longer than the window. -/
theorem windowText_length (text : String) (start : Nat) : (windowText text start).length ≤ 1600 := by
  obtain ⟨before, after, hslice, -, -⟩ := windowText_spec text start
  have hlength := congrArg List.length hslice
  rw [List.length_append, List.length_append, List.length_take, String.length_toList] at hlength
  omega

/-- A window covers its positions that are no spaces. -/
theorem windowText_covers {text : String} {start position : Nat} {c : Char}
    (hstart : start ≤ position) (hend : position < start + 1600)
    (hc : text.toList[position]? = some c) (hspace : isSpace c = false) :
    Covers text start (windowText text start) position := by
  obtain ⟨before, after, hslice, hbefore, hafter⟩ := windowText_spec text start
  have hinside : ((text.toList.drop start).take 1600)[position - start]? = some c := by
    rw [List.getElem?_take_of_lt (by omega), List.getElem?_drop, Nat.add_sub_cancel' hstart]
    exact hc
  have hposition := position_of_trim hslice hbefore hafter hinside hspace
  have hlength := congrArg List.length hslice
  have hbound : position < text.toList.length := (List.getElem?_eq_some_iff.mp hc).1
  refine ⟨_, _, append_of_window hslice, ?_⟩
  rw [List.length_append, List.length_append, List.length_take, String.length_toList] at hlength
  rw [String.length_toList] at hposition
  rw [List.length_append, List.length_take_of_le (by omega)]
  omega

/-- A page that is not blank has a character that is no space. -/
theorem exists_char_of_not_blank {text : String} (h : strip text ≠ "") :
    ∃ (position : Nat) (c : Char), text.toList[position]? = some c ∧ isSpace c = false := by
  by_contra hnone
  apply h
  have hall : ∀ c ∈ text.toList, isSpace c = true := by
    intro c hc
    obtain ⟨position, hposition⟩ := List.mem_iff_getElem?.mp hc
    by_contra hspace
    exact hnone ⟨position, c, hposition, by rwa [Bool.not_eq_true] at hspace⟩
  rw [strip, List.dropWhile_eq_nil_iff.mpr hall]
  rfl

/-! ## Chunks and their places -/

/-- A window of a page that is not blank: the page with its URL and its number, and the start
of the window. -/
structure Place where
  url : String
  page : WebpagePage
  number : Nat
  start : Nat

/-- The places of the chunks, in their order. -/
def places (urls : List String) (pages : List WebpagePage) : List Place :=
  (urls.zip pages).zipIdx.flatMap
    (fun z => (windowStarts z.1.2.text).map (fun start => ⟨z.1.1, z.1.2, z.2, start⟩))

/-- The chunk of a place with its number. -/
def placeChunk (z : Place × Nat) : IngestChunk :=
  ⟨z.2, windowText z.1.page.text z.1.start, chunkMetadata z.1.url z.1.page⟩

/-- The loop makes one chunk of each place, and numbers them in order. -/
theorem pageChunks_places (urls : List String) (pages : List WebpagePage) :
    pageChunks urls pages = (places urls pages).zipIdx.map placeChunk := by
  have hwindows : (urls.zip pages).flatMap (fun z => (windows z.2.text).map (fun w => (z.1, z.2, w))) =
      (places urls pages).map (fun p => (p.url, p.page, windowText p.page.text p.start)) := by
    have hpages : (urls.zip pages).zipIdx.flatMap
          (fun z => (windows z.1.2.text).map (fun w => (z.1.1, z.1.2, w))) =
        (urls.zip pages).flatMap (fun z => (windows z.2.text).map (fun w => (z.1, z.2, w))) := by
      conv_rhs => rw [← List.zipIdx_map_fst 0 (urls.zip pages), List.flatMap_map]
    rw [← hpages, places, List.map_flatMap]
    simp only [windows_eq, List.map_map, Function.comp_def]
  rw [pageChunks_eq, hwindows, List.zipIdx_map, List.map_map]
  rfl

/-- Places in the order of the pages, and on one page in the order of the text. -/
def Place.before (p q : Place) : Prop :=
  p.number < q.number ∨ p.number = q.number ∧ p.start < q.start

theorem places_pairwise (urls : List String) (pages : List WebpagePage) :
    (places urls pages).Pairwise Place.before := by
  rw [places, List.pairwise_flatMap]
  constructor
  · intro z _
    rw [List.pairwise_map]
    exact ((multiples_pairwise (by decide)).filter _).imp (fun h => .inr ⟨rfl, h⟩)
  · have hnumbers : ((urls.zip pages).zipIdx.map Prod.snd).Pairwise (· < ·) := by
      rw [List.zipIdx_map_snd]
      exact List.pairwise_lt_range'
    rw [List.pairwise_map] at hnumbers
    refine hnumbers.imp ?_
    intro a b hlt p hp q hq
    obtain ⟨start, -, rfl⟩ := List.mem_map.mp hp
    obtain ⟨start', -, rfl⟩ := List.mem_map.mp hq
    exact .inl hlt

theorem mem_places {urls : List String} {pages : List WebpagePage} {p : Place} :
    p ∈ places urls pages ↔ urls[p.number]? = some p.url ∧ pages[p.number]? = some p.page ∧
      p.start ∈ windowStarts p.page.text := by
  obtain ⟨url, page, number, start⟩ := p
  rw [places, List.mem_flatMap]
  constructor
  · rintro ⟨z, hz, hp⟩
    obtain ⟨start', hstart, hp⟩ := List.mem_map.mp hp
    cases hp
    have hget := List.mem_zipIdx_iff_getElem?.mp hz
    obtain ⟨hurl, hpage⟩ := List.getElem?_zip_eq_some.mp hget
    exact ⟨hurl, hpage, hstart⟩
  · rintro ⟨hurl, hpage, hstart⟩
    refine ⟨((url, page), number), ?_, List.mem_map_of_mem hstart⟩
    exact List.mem_zipIdx_iff_getElem?.mpr (List.getElem?_zip_eq_some.mpr ⟨hurl, hpage⟩)

/-- The place of a character that is no space: some window covers it. -/
theorem place_of_position {urls : List String} {pages : List WebpagePage} {number : Nat}
    {url : String} {page : WebpagePage} (hurl : urls[number]? = some url)
    (hpage : pages[number]? = some page) {position : Nat} {c : Char}
    (hc : page.text.toList[position]? = some c) (hspace : isSpace c = false) :
    ∃ start, (⟨url, page, number, start⟩ : Place) ∈ places urls pages ∧
      Covers page.text start (windowText page.text start) position := by
  have hbound : position < page.text.length := by
    rw [← String.length_toList]
    exact (List.getElem?_eq_some_iff.mp hc).1
  obtain ⟨hstart, hle, hlt⟩ := @window_of_position _ 1440 1600 _ (by decide) (by decide) hbound
  have hcovers := windowText_covers hle hlt hc hspace
  refine ⟨_, mem_places.mpr ⟨hurl, hpage, ?_⟩, hcovers⟩
  refine mem_windowStarts.mpr ⟨(mem_multiples (by decide)).mp hstart, ?_⟩
  -- the window is not blank, since it covers the position
  intro hblank
  obtain ⟨before, after, -, -, -, hfrom, hto⟩ := hcovers
  rw [hblank] at hto
  exact absurd hto (Nat.not_lt.mpr hfrom)

/-- A chunk is the trimmed window of 1600 characters of one page that starts at a multiple of
1440, and names the URL that the page was registered under. -/
def IsWindow (urls : List String) (pages : List WebpagePage) (origin : Nat × Nat)
    (chunk : IngestChunk) : Prop :=
  ∃ url page, urls[origin.1]? = some url ∧ pages[origin.1]? = some page ∧
    1440 ∣ origin.2 ∧ origin.2 < page.text.length ∧
    chunk.text = strip (sliceText page.text origin.2 1600) ∧ chunk.text ≠ "" ∧
    chunk.text.length ≤ 1600 ∧ sourceUrl chunk.metadata = .ok (.str url)

/-- The pages cut into chunks: each chunk comes from a page and a start on it, in this order, and
every character that is no space is covered by a chunk of its page. -/
structure CutInto (urls : List String) (pages : List WebpagePage) (origins : List (Nat × Nat))
    (chunks : List IngestChunk) : Prop where
  nonempty : chunks ≠ []
  numbered : chunks.map (·.seq) = (List.range chunks.length).map Int.ofNat
  ordered : origins.Pairwise (fun a b => a.1 < b.1 ∨ a.1 = b.1 ∧ a.2 < b.2)
  windows : List.Forall₂ (IsWindow urls pages) origins chunks
  covered : ∀ (number position : Nat) (page : WebpagePage) (c : Char),
    pages[number]? = some page → page.text.toList[position]? = some c → isSpace c = false →
      ∃ z ∈ origins.zip chunks, z.1.1 = number ∧ Covers page.text z.1.2 z.2.text position

/-- The chunks of fetched pages cut them: one chunk for each window of each page, numbered through,
each with the text of its window and the URL of its page. -/
theorem pageChunks_cut {urls : List String} {pages : List WebpagePage}
    (hlength : pages.length = urls.length) (hne : pages ≠ [])
    (htext : ∀ page ∈ pages, strip page.text ≠ "") :
    CutInto urls pages ((places urls pages).map (fun p => (p.number, p.start)))
      (pageChunks urls pages) := by
  rw [pageChunks_places]
  have hcovered : ∀ (number position : Nat) (page : WebpagePage) (c : Char),
      pages[number]? = some page → page.text.toList[position]? = some c → isSpace c = false →
        ∃ z ∈ ((places urls pages).map (fun p => (p.number, p.start))).zip
            ((places urls pages).zipIdx.map placeChunk),
          z.1.1 = number ∧ Covers page.text z.1.2 z.2.text position := by
    intro number position page c hpage hc hspace
    have hbound : number < urls.length := by
      rw [← hlength]
      exact (List.getElem?_eq_some_iff.mp hpage).1
    obtain ⟨start, hplace, hcovers⟩ := place_of_position
      (List.getElem?_eq_getElem hbound) hpage hc hspace
    obtain ⟨i, hi⟩ := List.mem_iff_getElem?.mp hplace
    refine ⟨((number, start), placeChunk (⟨urls[number], page, number, start⟩, i)), ?_, rfl, hcovers⟩
    apply List.mem_of_getElem? (i := i)
    rw [List.getElem?_zip_eq_some]
    simp [hi]
  refine ⟨?_, ?_, ?_, ?_, hcovered⟩
  · obtain ⟨page, hpage⟩ := List.exists_mem_of_ne_nil _ hne
    obtain ⟨number, hnumber⟩ := List.mem_iff_getElem?.mp hpage
    obtain ⟨position, c, hc, hspace⟩ := exists_char_of_not_blank (htext page hpage)
    obtain ⟨z, hz, -⟩ := hcovered number position page c hnumber hc hspace
    exact List.ne_nil_of_mem (List.of_mem_zip hz).2
  · rw [List.map_map, List.length_map, List.length_zipIdx, List.range_eq_range',
      ← List.zipIdx_map_snd 0 (places urls pages), List.map_map]
    rfl
  · rw [List.pairwise_map]
    exact (places_pairwise urls pages).imp (fun h => h)
  · rw [List.forall₂_map_left_iff, List.forall₂_map_right_iff]
    have hfst := List.zipIdx_map_fst 0 (places urls pages)
    conv => enter [2]; rw [← hfst]
    rw [List.forall₂_map_left_iff, List.forall₂_same]
    intro z hz
    obtain ⟨hurl, hpage, hstart⟩ := mem_places.mp (List.fst_mem_of_mem_zipIdx hz)
    obtain ⟨⟨hdvd, hlt⟩, hblank⟩ := mem_windowStarts.mp hstart
    exact ⟨z.1.url, z.1.page, hurl, hpage, hdvd, hlt, rfl, hblank, windowText_length _ _,
      sourceUrl_chunkMetadata _ _⟩

/-! ## Embeddings -/

/-- The embeddings belong to the chunks one by one: batches of at most 32 make up the chunks,
each was answered with as many vectors as it has texts, and the pairs of chunk and embedding are
those of the batches and their answers. -/
structure LinedUp (env : SyncEnv) (chunks : List IngestChunk) (embeddings : List Embedding) :
    Prop where
  batches : (batches chunks).flatten = chunks ∧
    ∀ batch ∈ batches chunks, 0 < batch.length ∧ batch.length ≤ 32
  answers : ∃ answers, List.Forall₂ (fun (batch : List IngestChunk × Nat) vectors =>
      env.embedTexts batch.2 (batch.1.map (·.text)) = .ok vectors ∧
        vectors.length = batch.1.length) (Webpages.batches chunks).zipIdx answers ∧
    chunks.zip embeddings =
      ((Webpages.batches chunks).zip answers).flatMap (fun z => z.1.zip z.2)
  length : embeddings.length = chunks.length

theorem embedBatches_ok {env : SyncEnv} {checked i : Nat} {bs : List (List IngestChunk)}
    {embeddings : List Embedding} (h : embedBatches env checked bs i = .ok (some embeddings)) :
    ∃ answers, List.Forall₂ (fun (batch : List IngestChunk × Nat) vectors =>
      env.embedTexts batch.2 (batch.1.map (·.text)) = .ok vectors ∧
        vectors.length = batch.1.length) (bs.zipIdx i) answers ∧ embeddings = answers.flatten := by
  induction bs generalizing i embeddings with
  | nil =>
      cases h
      exact ⟨[], .nil, rfl⟩
  | cons batch rest ih =>
      obtain ⟨current, -, h⟩ := bind_eq_ok.mp h
      split at h
      · cases pure_eq_ok.mp h
      obtain ⟨vectors, hvectors, h⟩ := bind_eq_ok.mp h
      split at h
      · cases h
      next hcount =>
        obtain ⟨embedded, hembedded, h⟩ := bind_eq_ok.mp h
        obtain ⟨tail, rfl, rfl⟩ := Option.map_eq_some_iff.mp (pure_eq_ok.mp h)
        obtain ⟨answers, hanswers, rfl⟩ := ih hembedded
        rw [List.zipIdx_cons]
        exact ⟨vectors :: answers, .cons ⟨hvectors, not_not.mp hcount⟩ hanswers, rfl⟩

/-- While the claim is current and each batch is answered with one vector per text, the batches
are embedded. -/
theorem embedBatches_complete {env : SyncEnv} {checked : Nat}
    (hcurrent : ∀ i, env.claimIsCurrent i = .ok true)
    (hembed : ∀ i texts, ∃ vectors, env.embedTexts i texts = .ok vectors ∧
      vectors.length = texts.length) (bs : List (List IngestChunk)) (i : Nat) :
    ∃ embeddings, embedBatches env checked bs i = .ok (some embeddings) := by
  induction bs generalizing i with
  | nil => exact ⟨[], rfl⟩
  | cons batch rest ih =>
      obtain ⟨vectors, hvectors, hlength⟩ := hembed i (batch.map (·.text))
      obtain ⟨embeddings, hrest⟩ := ih (i + 1)
      rw [List.length_map] at hlength
      refine ⟨vectors ++ embeddings, bind_eq_ok.mpr ⟨true, hcurrent _, ?_⟩⟩
      rw [Bool.not_true, if_neg Bool.false_ne_true]
      refine bind_eq_ok.mpr ⟨vectors, hvectors, ?_⟩
      rw [if_neg (not_not.mpr hlength)]
      exact bind_eq_ok.mpr ⟨some embeddings, hrest, rfl⟩

theorem linedUp_of_embedBatches {env : SyncEnv} {checked : Nat} {chunks : List IngestChunk}
    {embeddings : List Embedding}
    (h : embedBatches env checked (batches chunks) 0 = .ok (some embeddings)) :
    LinedUp env chunks embeddings := by
  have hpieces : batches chunks = pieces 32 chunks := rfl
  have hflatten : (batches chunks).flatten = chunks := pieces_flatten (by decide) chunks
  obtain ⟨answers, hanswers, rfl⟩ := embedBatches_ok h
  have hlengths : List.Forall₂ (fun (xs : List IngestChunk) (ys : List Embedding) =>
      ys.length = xs.length) (batches chunks) answers := by
    have hfst := List.zipIdx_map_fst 0 (batches chunks)
    rw [← hfst, List.forall₂_map_left_iff]
    exact hanswers.imp (fun _ _ hanswer => hanswer.2)
  obtain ⟨hzip, hlength⟩ := zip_flatten hlengths
  rw [hflatten] at hzip hlength
  refine ⟨⟨hflatten, ?_⟩, ⟨answers, hanswers, hzip⟩, hlength⟩
  rw [hpieces]
  exact fun batch hbatch => length_of_mem_pieces (by decide) hbatch

/-! ## The repository -/

/-- The cipher itself raised this. -/
def RaisedBy (pd : PrivateData) (e : Exc) : Prop :=
  (∃ value binding, pd.encryptText value binding = .error e) ∨
    ∃ value binding, pd.encryptJson value binding = .error e

/-- Why a publication with as many embeddings as chunks raises a `ValueError`. -/
theorem publish_error {pd : PrivateData} {uuid4 : Nat → Uuid} {db : Database}
    {claim : WebpageClaim} {document : Document} {page : DocumentWebpage}
    {content contentHash : Option String} {chunks : List IngestChunk} {embeddings : List Embedding}
    {message : String} (hne : chunks ≠ []) (hcount : embeddings.length = chunks.length)
    (h : publish pd uuid4 db claim document page content contentHash (some chunks)
      (some embeddings) = .error (.valueError message)) :
    message = "webpage publication requires nonempty content" ∨ RaisedBy pd (.valueError message) := by
  unfold publish at h
  split at h
  · split at h
    · have hfilter : (some chunks).filter (fun cs => decide (cs ≠ [])) = some chunks := by
        simp [hne]
      rw [hfilter] at h
      dsimp only at h
      rw [if_neg (not_not.mpr hcount.symm)] at h
      rcases bind_eq_error.mp h with h | ⟨rows, -, h⟩
      · -- the rows fail with one of their two encryptions
        rcases bind_eq_error.mp h with h | ⟨built, -, h⟩
        · obtain ⟨z, -, hrow⟩ := exists_of_mapM_eq_error h
          rcases bind_eq_error.mp hrow with htext | ⟨text, -, hrow⟩
          · exact .inr (.inl ⟨_, _, htext⟩)
          · rcases bind_eq_error.mp hrow with hmetadata | ⟨metadata, -, hrow⟩
            · exact .inr (.inr ⟨_, _, hmetadata⟩)
            · cases hrow
        · rw [if_pos hcount.symm] at h
          cases h
      · rcases bind_eq_error.mp h with h | ⟨stored, -, h⟩
        · exact .inr (.inl ⟨_, _, h⟩)
        · rcases bind_eq_error.mp h with h | ⟨db', -, h⟩
          · unfold Database.insertChunks at h
            split at h
            · cases h
            · split at h
              · cases h
              · cases h
          · split at h
            · cases h
            · cases h
    · cases h
  · cases h
    exact .inl rfl

theorem finish_error {pd : PrivateData} {uuid4 : Nat → Uuid} {now : Time} {db : Database}
    {claim : WebpageClaim} {content contentHash : String} {chunks : List IngestChunk}
    {embeddings : List Embedding} {message : String} (hne : chunks ≠ [])
    (hcount : embeddings.length = chunks.length)
    (h : (finish pd uuid4 now db claim content contentHash (some chunks) (some embeddings)).result
      = .error (.valueError message)) :
    message = "webpage publication requires nonempty content" ∨ RaisedBy pd (.valueError message) := by
  unfold finish complete at h
  have ht := Outcome.error_of_result h
  split at ht
  · cases ht
  · rcases bind_eq_error.mp ht with hlock | ⟨-, -, ht⟩
    · unfold lockActiveOwner at hlock
      split at hlock
      · cases hlock
      · cases hlock
    · split at ht
      · cases ht
      · split at ht
        · rcases bind_eq_error.mp ht with hpublish | ⟨rows, -, ht⟩
          · exact publish_error hne hcount hpublish
          · cases ht
        · cases ht

/-- Over every list of fetched pages that are not blank: the chunks cut the pages; the batches
are embedded when each is answered with one vector per text; the embeddings line up with the
chunks, and with them `finish` never raises that chunks or embeddings are missing.  These are
the chunks and embeddings of every sync that builds chunks. -/
theorem chunks_cover_pages (urls : List String) (pages : List WebpagePage)
    (hlength : pages.length = urls.length) (hne : pages ≠ [])
    (htext : ∀ page ∈ pages, strip page.text ≠ "") :
    (∃ origins, CutInto urls pages origins (pageChunks urls pages)) ∧
    (∀ (env : SyncEnv) (checked : Nat), (∀ i, env.claimIsCurrent i = .ok true) →
      (∀ i texts, ∃ vectors, env.embedTexts i texts = .ok vectors ∧
        vectors.length = texts.length) →
      ∃ embeddings, embedBatches env checked (batches (pageChunks urls pages)) 0 =
        .ok (some embeddings)) ∧
    (∀ (env : SyncEnv) (checked : Nat) (embeddings : List Embedding),
      embedBatches env checked (batches (pageChunks urls pages)) 0 = .ok (some embeddings) →
      LinedUp env (pageChunks urls pages) embeddings ∧
      ∀ (pd : PrivateData) (uuid4 : Nat → Uuid) (now : Time) (db : Database) (claim : WebpageClaim)
        (content contentHash : String),
        (finish pd uuid4 now db claim content contentHash (some (pageChunks urls pages))
          (some embeddings)).result =
            .error (.valueError "webpage publication requires all embedded chunks") →
        RaisedBy pd (.valueError "webpage publication requires all embedded chunks")) ∧
    ∀ (sha256 : String → String) (cipher : PrivateDataCipher) (env : SyncEnv)
      (claim : WebpageClaim) (sync : Sync), claim.urls = urls → sync.pages = pages →
      syncClaim sha256 cipher env claim = .ok (some sync) → sync.chunks ≠ none →
      ∃ embeddings, sync.chunks = some (pageChunks urls pages) ∧
        sync.embeddings = some embeddings ∧
        embedBatches env urls.length (batches (pageChunks urls pages)) 0 =
          .ok (some embeddings) := by
  have hcut := pageChunks_cut hlength hne htext
  refine ⟨⟨_, hcut⟩, ?_, ?_, ?_⟩
  · exact fun env checked hcurrent hembed => embedBatches_complete hcurrent hembed _ 0
  · intro env checked embeddings hembedded
    have hlined := linedUp_of_embedBatches hembedded
    refine ⟨hlined, ?_⟩
    intro pd uuid4 now db claim content contentHash hresult
    rcases finish_error hcut.nonempty hlined.length hresult with hmessage | hraised
    · exact absurd hmessage (by decide)
    · exact hraised
  · rintro sha256 cipher env claim sync rfl rfl hsync hchunks
    obtain ⟨fetched, -, hsync⟩ := bind_eq_ok.mp hsync
    cases fetched with
    | none => cases pure_eq_ok.mp hsync
    | some fetched =>
        obtain ⟨fingerprint, -, hsync⟩ := bind_eq_ok.mp hsync
        split at hsync
        · cases pure_eq_ok.mp hsync
          exact absurd rfl hchunks
        · obtain ⟨embedded, hembedded, hsync⟩ := bind_eq_ok.mp hsync
          obtain ⟨embeddings, rfl, rfl⟩ := Option.map_eq_some_iff.mp (pure_eq_ok.mp hsync)
          exact ⟨embeddings, rfl, rfl, hembedded⟩

/-! ### Two long pages -/

/-- A page with 24000 times one letter. -/
def longPage (url : String) (letter : Char) : WebpagePage :=
  ⟨url, String.ofList (List.replicate 24000 letter), []⟩

/-- Answers that go on with the claim, and embed each text. -/
def embeddingEnv : SyncEnv where
  claimIsCurrent := fun _ => .ok true
  fetch := fun _ _ => .error (.webpageFetch "not in the sample")
  embedTexts := fun _ texts => .ok (texts.map (fun text => [(text.length : Rat)]))

/-- No window of a text without spaces is left out. -/
theorem windowStarts_of_solid {text : String} (h : ∀ c ∈ text.toList, isSpace c = false) :
    windowStarts text = rangeBy text.length 1440 := by
  rw [windowStarts, List.filter_eq_self]
  intro start hstart
  have hlt : start < text.toList.length := by
    rw [String.length_toList]
    exact ((mem_multiples (by decide)).mp hstart).2
  have hget := List.getElem?_eq_getElem hlt
  obtain ⟨before, after, -, -, -, hfrom, hto⟩ := windowText_covers (Nat.le_refl start)
    (Nat.lt_add_of_pos_right (by decide)) hget (h _ (List.getElem_mem hlt))
  refine decide_eq_true fun hblank => ?_
  rw [hblank] at hto
  exact absurd hto (Nat.not_lt.mpr hfrom)

theorem longPage_solid {url : String} {letter : Char} (h : isSpace letter = false) :
    ∀ c ∈ (longPage url letter).text.toList, isSpace c = false := by
  intro c hc
  rw [longPage, String.toList_ofList] at hc
  rwa [(List.mem_replicate.mp hc).2]

theorem longPage_length (url : String) (letter : Char) : (longPage url letter).text.length = 24000 := by
  rw [longPage, String.length_ofList, List.length_replicate]

theorem longPage_not_blank {url : String} {letter : Char} (h : isSpace letter = false) :
    strip (longPage url letter).text ≠ "" := by
  intro hblank
  have hletter : letter ∈ (longPage url letter).text.toList := by
    rw [longPage, String.toList_ofList]
    exact List.mem_replicate.mpr ⟨by decide, rfl⟩
  obtain ⟨before, after, htrim, hbefore, hafter⟩ := trim_spec isSpace (longPage url letter).text.toList
  have hmiddle := congrArg String.toList hblank
  rw [strip, String.toList_ofList] at hmiddle
  rw [htrim, hmiddle, String.toList_empty, List.append_nil, List.mem_append] at hletter
  rcases hletter with hmem | hmem
  · exact Bool.false_ne_true (h.symm.trans (hbefore letter hmem))
  · exact Bool.false_ne_true (h.symm.trans (hafter letter hmem))

theorem pageChunks_long : (pageChunks ["u", "v"] [longPage "u" 'a', longPage "v" 'b']).length = 34 := by
  have hfirst : windowStarts (longPage "u" 'a').text = rangeBy 24000 1440 := by
    rw [windowStarts_of_solid (longPage_solid (by decide)), longPage_length]
  have hsecond : windowStarts (longPage "v" 'b').text = rangeBy 24000 1440 := by
    rw [windowStarts_of_solid (longPage_solid (by decide)), longPage_length]
  have hpages : ((["u", "v"].zip [longPage "u" 'a', longPage "v" 'b']).zipIdx) =
      [(("u", longPage "u" 'a'), 0), (("v", longPage "v" 'b'), 1)] := rfl
  rw [pageChunks_places, List.length_map, List.length_zipIdx, places, hpages]
  simp only [List.flatMap_cons, List.flatMap_nil, List.append_nil, List.length_append,
    List.length_map, hfirst, hsecond]
  decide

/-- The chunks of two long pages go to the embedder in a batch of 32 and one of two. -/
theorem batches_long : (batches (pageChunks ["u", "v"] [longPage "u" 'a', longPage "v" 'b'])).map
    List.length = [32, 2] := by
  have hchunks := pageChunks_long
  generalize pageChunks ["u", "v"] [longPage "u" 'a', longPage "v" 'b'] = chunks at hchunks
  have hstarts : rangeBy chunks.length 32 = [0, 32] := by rw [hchunks]; decide
  rw [batches, hstarts]
  simp [hchunks]

/-- Two pages of 24000 characters are cut into 34 chunks, which are embedded in two batches. -/
theorem chunks_cover_pages_long :
    let chunks := pageChunks ["u", "v"] [longPage "u" 'a', longPage "v" 'b']
    chunks.length = 34 ∧ (batches chunks).map List.length = [32, 2] ∧
      (∃ origins, CutInto ["u", "v"] [longPage "u" 'a', longPage "v" 'b'] origins chunks) ∧
      ∃ embeddings, embedBatches embeddingEnv 2 (batches chunks) 0 = .ok (some embeddings) ∧
        LinedUp embeddingEnv chunks embeddings := by
  intro chunks
  have hblank : ∀ page ∈ [longPage "u" 'a', longPage "v" 'b'], strip page.text ≠ "" := by
    intro page hpage
    rcases List.mem_pair.mp hpage with rfl | rfl
    · exact longPage_not_blank (by decide)
    · exact longPage_not_blank (by decide)
  obtain ⟨hcut, hcomplete, hlined, -⟩ := chunks_cover_pages ["u", "v"]
    [longPage "u" 'a', longPage "v" 'b'] rfl (List.cons_ne_nil _ _) hblank
  obtain ⟨embeddings, hembedded⟩ := hcomplete embeddingEnv 2 (fun _ => rfl)
    (fun _ texts => ⟨_, rfl, List.length_map _⟩)
  exact ⟨pageChunks_long, batches_long, hcut, embeddings, hembedded,
    (hlined embeddingEnv 2 embeddings hembedded).1⟩
end PortRag.Webpages
