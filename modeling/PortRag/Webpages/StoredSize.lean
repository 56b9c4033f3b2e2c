import PortRag.Foundation.TextSize
import PortRag.Security.Cells
import PortRag.Security.RoundTrip
import PortRag.Webpages.Coverage

set_option autoImplicit false

/-!
# What the worker accepts, the cipher can store

The worker limits the UTF-8 bytes of the fetched texts; the cipher limits the bytes of their
JSON text, in which a character takes up to six bytes.  The limits nest: the joined texts of a
sync are within the limit of a large value, and each chunk is within that of one ciphertext.
-/

namespace PortRag.Webpages

open PortRag.Foundation PortRag.Db PortRag.Security PortRag.Http PortRag.Ingest

/-! ## JSON texts -/

/-- The JSON text of a manifest. -/
def manifestText (bytes count : Nat) (digest : String) : List Char :=
  '\x7b' :: quote "bytes".toList ++ ':' :: (toString bytes).toList ++
    ',' :: quote "count".toList ++ ':' :: (toString count).toList ++
    ',' :: quote "sha256".toList ++ ':' :: quote digest.toList ++ ['\x7d']

/-- `json.dumps(…, ensure_ascii=False, separators=(",", ":")).encode()` of texts and of manifests,
and the length of a hexadecimal SHA-256. -/
structure PrintsJson (lib : Encodings) : Prop where
  text : ∀ value : String, lib.dumps (.str value) = .ok (utf8 (String.ofList (quote value.toList)))
  manifest : ∀ (bytes count : Nat) (digest : String),
    lib.dumps (.obj [("bytes", .num bytes), ("count", .num count), ("sha256", .str digest)]) =
      .ok (utf8 (String.ofList (manifestText bytes count digest)))
  digest_length : ∀ raw, (lib.sha256 raw).length = 64

theorem utf8_length (cs : List Char) : (utf8 (String.ofList cs)).length = byteSize cs := by
  rw [← utf8ByteSize_ofList]
  exact Array.length_toList

/-- The characters of a number. -/
theorem byteSize_nat {n : Nat} (h : n < 2 ^ 63) : byteSize (toString n).toList ≤ 19 := by
  have hdigit : ∀ c ∈ (toString n).toList, c.utf8Size = 1 := by
    intro c hc
    have hdec := toString_digits n c hc
    rw [Char.utf8Size_eq_one_iff]
    simp only [Char.isDigit, Bool.and_eq_true, decide_eq_true_eq] at hdec
    exact UInt32.le_trans hdec.2 (by decide)
  have hlength := length_nat h
  rw [← String.length_toList] at hlength
  have hsum : byteSize (toString n).toList = (toString n).toList.length := by
    rw [byteSize, List.map_congr_left hdigit, List.map_const', List.sum_replicate, Nat.nsmul_eq_mul,
      Nat.mul_one]
  omega

theorem manifestText_size {bytes count : Nat} {digest : String} (hbytes : bytes < 2 ^ 63)
    (hcount : count < 2 ^ 63) (hdigest : digest.length = 64) :
    byteSize (manifestText bytes count digest) ≤ maxJson := by
  have hnumber := byteSize_nat hbytes
  have hnumber' := byteSize_nat hcount
  have hquote := byteSize_quote_le_length digest.toList
  rw [String.length_toList, hdigest] at hquote
  have hwords : byteSize (quote "bytes".toList) = 7 ∧ byteSize (quote "count".toList) = 7 ∧
      byteSize (quote "sha256".toList) = 8 := by decide
  have hmarks : '\x7b'.utf8Size = 1 ∧ ':'.utf8Size = 1 ∧ ','.utf8Size = 1 ∧ '\x7d'.utf8Size = 1 := by
    decide
  obtain ⟨hopen, hcolon, hcomma, hclose⟩ := hmarks
  unfold manifestText
  simp only [byteSize_append, byteSize_cons, byteSize_nil, hwords.1, hwords.2.1, hwords.2.2, hopen,
    hcolon, hcomma, hclose]
  rw [maxJson]
  omega

/-! ## Sizes of what a sync stores -/

/-- What `fetchPages` accepts is within the limit of the worker. -/
theorem fetchPages_bytes {env : SyncEnv} {urls : List String} {i totalBytes : Nat}
    {pages : List WebpagePage} (htotal : totalBytes ≤ maxDocumentBytes)
    (h : fetchPages env urls i totalBytes = .ok (some pages)) :
    totalBytes + (pages.map (·.text.utf8ByteSize)).sum ≤ maxDocumentBytes := by
  induction urls generalizing i totalBytes pages with
  | nil =>
      cases h
      exact htotal
  | cons url rest ih =>
      obtain ⟨current, -, h⟩ := bind_eq_ok.mp h
      split at h
      · cases pure_eq_ok.mp h
      obtain ⟨page, -, h⟩ := bind_eq_ok.mp h
      split at h
      · cases h
      dsimp only at h
      split at h
      · cases h
      next hbytes =>
        obtain ⟨fetched, hfetched, h⟩ := bind_eq_ok.mp h
        obtain ⟨tail, rfl, rfl⟩ := Option.map_eq_some_iff.mp (pure_eq_ok.mp h)
        have hrest := ih (Nat.not_lt.mp hbytes) hfetched
        rw [List.map_cons, List.sum_cons]
        omega

/-- The JSON text of the joined content is within the limit of a large value. -/
theorem joinedText_size {pages : List WebpagePage} (hmany : pages.length ≤ 100)
    (hbytes : (pages.map (·.text.utf8ByteSize)).sum ≤ maxDocumentBytes) :
    byteSize (quote (joinedText pages).toList) ≤ maxValue := by
  have hjoined := byteSize_intercalate_le "

".toList ((pages.map (·.text)).map String.toList)
  have hparts : (((pages.map (·.text)).map String.toList).map byteSize).sum =
      (pages.map (·.text.utf8ByteSize)).sum := by
    rw [List.map_map, List.map_map]
    exact congrArg List.sum (List.map_congr_left (fun page _ => byteSize_toList page.text))
  have hseparator : byteSize "

".toList = 2 := by decide
  have hcontent : (joinedText pages).toList =
      "

".toList.intercalate ((pages.map (·.text)).map String.toList) := by
    rw [joinedText, String.toList_intercalate]
  rw [← hcontent, hparts, hseparator, List.length_map, List.length_map] at hjoined
  have hquote := byteSize_quote_le (joinedText pages).toList
  rw [maxDocumentBytes] at hbytes
  rw [maxValue]
  omega

/-- So the content that a sync of at most 100 URLs hands over is within that limit. -/
theorem syncClaim_size {sha256 : String → String} {cipher : PrivateDataCipher} {env : SyncEnv}
    {claim : WebpageClaim} {sync : Sync} (hmany : claim.urls.length ≤ 100)
    (h : syncClaim sha256 cipher env claim = .ok (some sync)) :
    byteSize (quote sync.content.toList) ≤ maxValue := by
  obtain ⟨hlength, hcontent, -, -⟩ := syncClaim_ok h
  have hbytes := fetchPages_bytes (Nat.zero_le _) (syncClaim_fetched h)
  rw [Nat.zero_add] at hbytes
  rw [hcontent]
  exact joinedText_size (hlength.trans_le hmany) hbytes

/-- The JSON text of a chunk is within the limit of one ciphertext. -/
theorem chunkText_size {urls : List String} {pages : List WebpagePage} {chunk : IngestChunk}
    (h : chunk ∈ pageChunks urls pages) : byteSize (quote chunk.text.toList) ≤ maxJson := by
  rw [pageChunks_places] at h
  obtain ⟨z, -, rfl⟩ := List.mem_map.mp h
  have hlength := windowText_length z.1.page.text z.1.start
  have hquote := byteSize_quote_le_length (placeChunk z).text.toList
  rw [String.length_toList] at hquote
  have htext : (placeChunk z).text.length ≤ 1600 := hlength
  rw [maxJson]
  omega

/-! ## Encryption without the size error -/

/-- The error of a value that is too large. -/
def sizeError : Exc := .valueError "Private-data value exceeds the size limit"

theorem transitEncrypt_ne {service : Transit} {raw : Bytes} {binding : StorageBinding}
    {h : History} : (transitEncrypt service raw binding h).1 ≠ .error sizeError := by
  intro hrun
  unfold transitEncrypt StorageBinding.associatedData at hrun
  split at hrun
  · next e hdata =>
      split at hdata
      · cases hdata
        exact absurd (Except.error.inj hrun) (by decide)
      · cases hdata
  · dsimp only at hrun
    split at hrun
    · split at hrun
      · cases hrun
      · cases hrun
    · cases hrun

theorem encryptChunks_ne {service : Transit} {binding : StorageBinding}
    {chunks : List (Bytes × Nat)} {h : History} :
    (encryptChunks service binding chunks h).1 ≠ .error sizeError := by
  induction chunks generalizing h with
  | nil => exact fun hrun => by cases hrun
  | cons chunk rest ih =>
      intro hrun
      unfold encryptChunks at hrun
      split at hrun
      · next e h' hfirst =>
          have hne := @transitEncrypt_ne service chunk.1 (binding.part (chunkName chunk.2)) h
          rw [hfirst] at hne
          exact hne (congrArg Except.error (Except.error.inj hrun))
      · next ciphertext h' hfirst =>
          split at hrun
          · next e h'' hrest =>
              have hne := @ih h'
              rw [hrest] at hne
              exact hne hrun
          · cases hrun

/-- A value within the limit, whose manifest is a small value, is never too large. -/
theorem encrypt_ne {lib : Encodings} {service : Transit} {value : Json} {raw manifest : Bytes}
    (hraw : lib.dumps value = .ok raw) (hsize : raw.length ≤ maxValue)
    (hmanifest : lib.dumps (manifestOf lib raw) = .ok manifest) (hsmall : manifest.length ≤ maxJson)
    (depth : Nat) (binding : StorageBinding) (h : History) :
    (encrypt lib service (depth + 2) value binding h).1 ≠ .error sizeError := by
  have hinner : ∀ binding h,
      (encrypt lib service (depth + 1) (manifestOf lib raw) binding h).1 ≠ .error sizeError := by
    intro binding h
    have hlimit : maxJson ≤ maxValue := by decide
    unfold encrypt
    rw [hmanifest]
    dsimp only
    rw [if_neg (by omega), if_pos hsmall]
    exact transitEncrypt_ne
  unfold encrypt
  rw [hraw]
  dsimp only
  rw [if_neg (Nat.not_lt.mpr hsize)]
  split
  · exact transitEncrypt_ne
  · split
    · next e h' hchunks =>
        have hne := @encryptChunks_ne service binding (slices raw).zipIdx
          { h with calls := h.calls ++ [(value, binding)] }
        rw [hchunks] at hne
        exact fun hrun => hne (congrArg Except.error (Except.error.inj hrun))
    · next chunks h' hchunks =>
        split
        · next e h'' hrun =>
            have hne := hinner (binding.part "manifest") h'
            rw [hrun] at hne
            exact hne
        · exact fun hrun => by cases hrun

/-- For every list of at most 100 pages within the limit of the worker: the JSON text of the
joined content is within that of the cipher; the number of its chunks, its manifest and the
lengths of its chunks pass the checks of `decrypt`; its encryption never raises the size error,
and what it returns is decrypted to the content; the JSON text of each chunk of the pages fits in
one ciphertext. -/
theorem content_storable (lib : Encodings) (hprints : PrintsJson lib) (pages : List WebpagePage)
    (hmany : pages.length ≤ 100)
    (hbytes : (pages.map (·.text.utf8ByteSize)).sum ≤ maxDocumentBytes) :
    (∃ raw, lib.dumps (.str (joinedText pages)) = .ok raw ∧ raw.length ≤ maxValue ∧
      manifestBytes (manifestOf lib raw) (slices raw).length = .ok raw.length ∧
      matchesManifest lib (manifestOf lib raw) raw.length (slices raw).flatten = true ∧
      ∀ slice ∈ slices raw, slice.length ≤ maxJson) ∧
    (∀ (service : Transit) (depth : Nat) (binding : StorageBinding) (h : History),
      (encrypt lib service (depth + 2) (.str (joinedText pages)) binding h).1 ≠
          .error (.valueError "Private-data value exceeds the size limit") ∧
        (lib.Inverts → service.Faithful → ∀ ciphertext h',
          encrypt lib service (depth + 2) (.str (joinedText pages)) binding h = (.ok ciphertext, h') →
          ∀ later, GoesOn h' later → decrypt lib service later (depth + 2) ciphertext binding =
            .ok (.str (joinedText pages)))) ∧
    ∀ urls, ∀ chunk ∈ pageChunks urls pages, ∃ raw, lib.dumps (.str chunk.text) = .ok raw ∧
      raw.length ≤ maxJson := by
  have hraw := hprints.text (joinedText pages)
  have hsize : (utf8 (String.ofList (quote (joinedText pages).toList))).length ≤ maxValue := by
    rw [utf8_length]
    exact joinedText_size hmany hbytes
  generalize utf8 (String.ofList (quote (joinedText pages).toList)) = raw at hraw hsize
  refine ⟨⟨raw, hraw, hsize, manifestBytes_manifestOf hsize rfl, ?_, fun slice => slice_length⟩,
    ?_, ?_⟩
  · rw [slices_flatten]
    exact matchesManifest_manifestOf raw
  · intro service depth binding h
    constructor
    · have hcount : (slices raw).length < 2 ^ 63 := by
        rw [slices_length]
        rw [maxValue] at hsize
        omega
      have hlength : raw.length < 2 ^ 63 := by
        rw [maxValue] at hsize
        omega
      refine encrypt_ne hraw hsize (hprints.manifest _ _ _) ?_ depth binding h
      rw [utf8_length]
      exact manifestText_size hlength hcount (hprints.digest_length raw)
    · intro hlib hservice ciphertext h' hrun later hlater
      exact (encrypt_ok hlib hservice hrun).2.2 later (depth + 2) (Nat.le_refl _) hlater
  · intro urls chunk hchunk
    refine ⟨_, hprints.text chunk.text, ?_⟩
    rw [utf8_length]
    exact chunkText_size hchunk

/-! Libraries that print texts and manifests, and one page of control characters. -/

/-- Library functions that print JSON as Python does, as far as the cipher needs it, and read
nothing. -/
def printingEncodings : Encodings where
  dumps
    | .str value => .ok (utf8 (String.ofList (quote value.toList)))
    | .obj [("bytes", .num bytes), ("count", .num count), ("sha256", .str digest)] =>
        .ok (utf8 (String.ofList (manifestText bytes.num.toNat count.num.toNat digest)))
    | _ => .error (.other "not in the sample")
  loads := fun _ => .error (.other "not in the sample")
  dumpEnvelope := fun manifest chunks => ",".intercalate (manifest :: chunks)
  loadEnvelope := fun _ => .error (.other "not in the sample")
  sha256 := fun _ => String.ofList (List.replicate 64 'a')

theorem printingEncodings_prints : PrintsJson printingEncodings where
  text := fun _ => rfl
  manifest := by
    intro bytes count digest
    unfold printingEncodings
    simp
  digest_length := fun _ => by
    change (String.ofList (List.replicate 64 'a')).length = 64
    rw [String.length_ofList, List.length_replicate]

/-- A page of 50000 control characters, each of which JSON text escapes. -/
def controlPage : WebpagePage := ⟨"u", String.ofList (List.replicate 50000 '\x01'), []⟩

theorem controlPage_bytes : controlPage.text.utf8ByteSize = 50000 := by
  have hone : '\x01'.utf8Size = 1 := by decide
  rw [← byteSize_toList, controlPage, String.toList_ofList, byteSize, List.map_replicate, hone,
    List.sum_replicate_nat]

theorem controlPage_joined : joinedText [controlPage] = controlPage.text := by
  rw [joinedText, List.map_singleton]
  rfl

/-- Its JSON text is six times as long, and has two quotes. -/
theorem controlPage_quoted : byteSize (quote (joinedText [controlPage]).toList) = 300002 := by
  have hsix : byteSize (escapeChar '\x01') = 6 := by decide
  have hmark : '"'.utf8Size = 1 := by decide
  have hcontent : byteSize ((List.replicate 50000 '\x01').flatMap escapeChar) = 300000 := by
    rw [@byteSize_flatMap escapeChar 6, List.length_replicate]
    intro c hc
    rw [(List.mem_replicate.mp hc).2]
    exact hsix
  rw [controlPage_joined, controlPage, String.toList_ofList, quote, byteSize_cons, byteSize_append,
    hcontent, byteSize_cons, byteSize_nil, hmark]

/-- The content of the page is put into an envelope: its five chunks and its manifest pass the
checks of `decrypt`, and its encryption does not raise the size error. -/
theorem content_storable_control :
    (∃ raw, printingEncodings.dumps (.str (joinedText [controlPage])) = .ok raw ∧
      raw.length = 300002 ∧ raw.length ≤ maxValue ∧ (slices raw).length = 5 ∧
      manifestBytes (manifestOf printingEncodings raw) (slices raw).length = .ok raw.length ∧
      matchesManifest printingEncodings (manifestOf printingEncodings raw) raw.length
        (slices raw).flatten = true ∧
      ∀ slice ∈ slices raw, slice.length ≤ maxJson) ∧
    (encrypt printingEncodings clearTransit 2 (.str (joinedText [controlPage])) ⟨"o", "r", "f"⟩
      ⟨[], []⟩).1 ≠ .error (.valueError "Private-data value exceeds the size limit") := by
  have hbytes : (([controlPage].map (·.text.utf8ByteSize)).sum) ≤ maxDocumentBytes := by
    rw [List.map_singleton, List.sum_singleton, controlPage_bytes]
    decide
  obtain ⟨⟨raw, hraw, hsize, hmanifest, hmatches, hslices⟩, hencrypt, -⟩ :=
    content_storable printingEncodings printingEncodings_prints [controlPage] (by decide) hbytes
  have hlength : raw.length = 300002 := by
    have hprinted := (printingEncodings_prints.text (joinedText [controlPage])).symm.trans hraw
    rw [← Except.ok.inj hprinted, utf8_length]
    exact controlPage_quoted
  refine ⟨⟨raw, hraw, hlength, hsize, ?_, hmanifest, hmatches, hslices⟩,
    (hencrypt clearTransit 0 ⟨"o", "r", "f"⟩ ⟨[], []⟩).1⟩
  rw [slices_length, hlength]

end PortRag.Webpages
