import Mathlib.Tactic.Ring
import PortRag.Foundation.Pieces
import PortRag.Security.OpenBao

set_option autoImplicit false

/-!
# Decryption after encryption

What `encrypt` returns, `decrypt` reads back under the same binding, whatever is encrypted in
between: the two compute the chunks of a large value, their number and their bounds apart from
each other, and each manifest is a value one level down.
-/

namespace PortRag.Security

open PortRag.Foundation

/-! ## What the cipher relies on -/

/-- JSON text is read back as what was printed. -/
structure Encodings.Inverts (lib : Encodings) : Prop where
  loads_dumps : ∀ {value raw}, lib.dumps value = .ok raw → lib.loads raw = .ok value
  loads_envelope : ∀ manifest chunks, lib.loadEnvelope (lib.dumpEnvelope manifest chunks) =
    .ok (.obj [("manifest", .str manifest), ("chunks", .arr (chunks.map .str))])

/-- Transit decrypts what it encrypted under the same associated data, also later on.  Asked for
at most `maxJson` bytes, its answers stay below the 1 MiB that `_request` reads. -/
def Transit.Faithful (service : Transit) : Prop :=
  ∀ {requests raw data ciphertext}, raw.length ≤ maxJson →
    service.encrypt requests ⟨raw, data⟩ = .ok ciphertext →
    ∀ later, service.decrypt (requests ++ ⟨raw, data⟩ :: later) ciphertext data = .ok raw

/-- The cipher as the repositories use it, after the requests of `h`. -/
def openBaoPrivateDataCipher (lib : Encodings) (service : Transit)
    (lookup : String → StorageBinding → Except Exc String) (depth : Nat) (h : History) :
    PrivateDataCipher where
  encrypt := fun value binding => (encrypt lib service depth value binding h).1
  decrypt := decrypt lib service h depth
  lookup := lookup

/-! ## Chunks -/

theorem slices_length (raw : Bytes) : (slices raw).length = (raw.length + 65535) / 65536 := by
  rw [slices, List.length_map, List.length_range]

theorem slices_flatten (raw : Bytes) : (slices raw).flatten = raw := by
  rw [slices, flatten_pieces, List.take_of_length_le]
  omega

theorem slice_length {raw chunk : Bytes} (h : chunk ∈ slices raw) : chunk.length ≤ maxJson := by
  obtain ⟨i, -, rfl⟩ := List.mem_map.mp h
  rw [List.length_take, maxJson]
  omega

/-! ## Requests -/

section RoundTrip

variable {lib : Encodings} {service : Transit} {h h' : History}

/-- The history `later` goes on from `h`. -/
def GoesOn (h later : History) : Prop := h.requests <+: later.requests

theorem isCiphertext_vault {ciphertext : String} (h : isCiphertext ciphertext = true) :
    ∃ rest, ciphertext.toList = 'v' :: 'a' :: 'u' :: 'l' :: 't' :: ':' :: rest := by
  unfold isCiphertext at h
  split at h
  · next hlist => exact ⟨_, hlist⟩
  · cases h

/-- What a request to encrypt came to. -/
theorem transitEncrypt_ok {raw : Bytes} {binding : StorageBinding} {ciphertext : String}
    (hrun : transitEncrypt service raw binding h = (.ok ciphertext, h')) :
    ∃ data, binding.associatedData = .ok data ∧ isCiphertext ciphertext = true ∧
      service.encrypt h.requests ⟨raw, data⟩ = .ok ciphertext ∧
      h'.requests = h.requests ++ [⟨raw, data⟩] := by
  unfold transitEncrypt at hrun
  split at hrun
  · cases hrun
  · next data hdata =>
      dsimp only at hrun
      split at hrun
      · next answer hanswer =>
          split at hrun
          · next hciphertext =>
              cases hrun
              exact ⟨data, hdata, hciphertext, hanswer, rfl⟩
          · cases hrun
      · cases hrun

/-- The request to decrypt its answer. -/
theorem transitDecrypt_encrypt (hservice : service.Faithful) {raw : Bytes}
    {binding : StorageBinding} {ciphertext : String} (hraw : raw.length ≤ maxJson)
    (hrun : transitEncrypt service raw binding h = (.ok ciphertext, h')) {later : History}
    (hlater : GoesOn h' later) :
    transitDecrypt service later (.str ciphertext) binding = .ok raw := by
  obtain ⟨data, hdata, hciphertext, hanswer, hrequests⟩ := transitEncrypt_ok hrun
  obtain ⟨more, hmore⟩ := hlater
  rw [hrequests, List.append_assoc, List.singleton_append] at hmore
  have hdecrypt := hservice hraw hanswer more
  unfold transitDecrypt
  dsimp only
  rw [if_pos hciphertext, hdata]
  dsimp only
  rw [← hmore, hdecrypt]
  dsimp only
  rw [if_neg (by omega)]

/-- Encryption goes on from the history before. -/
theorem transitEncrypt_goesOn {raw : Bytes} {binding : StorageBinding} {ciphertext : String}
    (hrun : transitEncrypt service raw binding h = (.ok ciphertext, h')) : GoesOn h h' := by
  obtain ⟨data, -, -, -, hrequests⟩ := transitEncrypt_ok hrun
  exact ⟨_, hrequests.symm⟩

/-- The chunks of a large value are decrypted as they were encrypted. -/
theorem encryptChunks_ok (hservice : service.Faithful) {binding : StorageBinding}
    {chunks : List (Bytes × Nat)} (hchunks : ∀ c ∈ chunks, c.1.length ≤ maxJson)
    {ciphertexts : List String}
    (hrun : encryptChunks service binding chunks h = (.ok ciphertexts, h')) :
    GoesOn h h' ∧ ∀ later, GoesOn h' later →
      List.Forall₂ (fun (c : Bytes × Nat) ciphertext => transitDecrypt service later
        (.str ciphertext) (binding.part (chunkName c.2)) = .ok c.1) chunks ciphertexts := by
  induction chunks generalizing h ciphertexts with
  | nil =>
      cases hrun
      exact ⟨List.prefix_refl _, fun _ _ => .nil⟩
  | cons chunk rest ih =>
      obtain ⟨raw, index⟩ := chunk
      unfold encryptChunks at hrun
      split at hrun
      · cases hrun
      · next ciphertext middle hfirst =>
          split at hrun
          · cases hrun
          · next others last hothers =>
              cases hrun
              obtain ⟨hgoes, hrest⟩ :=
                ih (fun c hc => hchunks c (List.mem_cons_of_mem _ hc)) hothers
              refine ⟨(transitEncrypt_goesOn hfirst).trans hgoes, fun later hlater => ?_⟩
              refine .cons ?_ (hrest later hlater)
              exact transitDecrypt_encrypt hservice (hchunks (raw, index) List.mem_cons_self) hfirst
                (hgoes.trans hlater)

/-! ## Envelopes -/

/-- A text with a prefix of its own starts with it, and the rest is the rest. -/
theorem startsWith_append (start rest : String) : startsWith (start ++ rest) start = true := by
  rw [startsWith, String.toList_append]
  exact List.isPrefixOf_iff_prefix.mpr (List.prefix_append _ _)

theorem drop_append (start rest : String) :
    String.ofList ((start ++ rest).toList.drop start.toList.length) = rest := by
  rw [String.toList_append, List.drop_left, String.ofList_toList]

/-- A ciphertext of Transit is no envelope. -/
theorem not_startsWith_large {ciphertext : String} (h : isCiphertext ciphertext = true) :
    startsWith ciphertext largePrefix = false := by
  obtain ⟨rest, hlist⟩ := isCiphertext_vault h
  have hlarge : largePrefix.toList = 'p' :: "ort-openbao:v1:".toList := by decide
  rw [startsWith, hlist, hlarge]
  rfl

theorem hasCipherPrefix_ciphertext {ciphertext : String} (h : isCiphertext ciphertext = true) :
    hasCipherPrefix ciphertext = true := by
  obtain ⟨rest, hlist⟩ := isCiphertext_vault h
  have hvault : "vault:".toList = ['v', 'a', 'u', 'l', 't', ':'] := by decide
  rw [hasCipherPrefix, startsWith, hlist, hvault]
  rfl

theorem hasCipherPrefix_large (rest : String) : hasCipherPrefix (largePrefix ++ rest) = true := by
  rw [hasCipherPrefix, startsWith_append, Bool.or_true]

theorem intValue_nat (n : Nat) : intValue (some (.num n)) = some (n : Int) := by
  rw [intValue, Rat.den_natCast, if_pos rfl, Rat.num_natCast]

/-- The manifest of a value passes its check, and announces the value's length. -/
theorem manifestBytes_manifestOf {raw : Bytes} (hraw : raw.length ≤ maxValue) {count : Nat}
    (hcount : count = (slices raw).length) :
    manifestBytes (manifestOf lib raw) count = .ok raw.length := by
  have hbytes : intValue ((manifestOf lib raw).get? "bytes") = some (raw.length : Int) :=
    intValue_nat _
  have hsame : intValue ((manifestOf lib raw).get? "count") = some (count : Int) := by
    rw [hcount]
    exact intValue_nat _
  have hpieces : (count : Int) = ((raw.length : Int) + 65535) / 65536 := by
    rw [hcount, slices_length]
    omega
  unfold manifestBytes
  rw [hbytes]
  dsimp only
  rw [if_pos ⟨Int.natCast_nonneg _, by exact_mod_cast hraw, hsame, hpieces⟩, Int.toNat_natCast]

theorem matchesManifest_manifestOf (raw : Bytes) :
    matchesManifest lib (manifestOf lib raw) raw.length raw = true := by
  have hdigest : (manifestOf lib raw).get? "sha256" = some (.str (lib.sha256 raw)) := rfl
  unfold matchesManifest
  rw [hdigest]
  simp

/-- The decryption of an envelope, from that of its manifest and its chunks. -/
theorem decrypt_envelope (hlib : lib.Inverts) {raw : Bytes} {value : Json}
    (hdumps : lib.dumps value = .ok raw) (hraw : raw.length ≤ maxValue) {binding : StorageBinding}
    {manifest : String} {chunks : List String} {depth : Nat}
    (hmanifest : decrypt lib service h depth manifest (binding.part "manifest") =
      .ok (manifestOf lib raw))
    (hchunks : List.Forall₂ (fun (c : Bytes × Nat) ciphertext => transitDecrypt service h
      (.str ciphertext) (binding.part (chunkName c.2)) = .ok c.1) (slices raw).zipIdx chunks) :
    decrypt lib service h (depth + 1) (largePrefix ++ lib.dumpEnvelope manifest chunks) binding =
      .ok value := by
  have hcount : (chunks.map Json.str).length = (slices raw).length := by
    rw [List.length_map, ← hchunks.length_eq, List.length_zipIdx]
  have hparts : (chunks.map Json.str).zipIdx.mapM (fun c => transitDecrypt service h c.1
      (binding.part (chunkName c.2))) = .ok (slices raw) := by
    rw [mapM_eq_ok]
    refine Forall₂.zipIdx_swap (R := fun chunk index ciphertext => transitDecrypt service h
      ciphertext (binding.part (chunkName index)) = .ok chunk) ?_
    exact List.forall₂_map_right_iff.mpr hchunks
  unfold decrypt
  rw [if_pos (startsWith_append _ _), drop_append, hlib.loads_envelope]
  refine bind_eq_ok.mpr ⟨_, rfl, bind_eq_ok.mpr ⟨.str manifest, rfl, bind_eq_ok.mpr
    ⟨manifest, rfl, bind_eq_ok.mpr ⟨_, hmanifest, bind_eq_ok.mpr ⟨.arr (chunks.map .str), rfl, ?_⟩⟩⟩⟩⟩
  dsimp only
  refine bind_eq_ok.mpr ⟨_, manifestBytes_manifestOf hraw hcount, bind_eq_ok.mpr ⟨_, hparts, ?_⟩⟩
  rw [slices_flatten, matchesManifest_manifestOf, if_pos rfl]
  exact hlib.loads_dumps hdumps

/-! ## The round trip -/

/-- What `encrypt` returns is told from plaintext, and is decrypted by induction on the depth of
the manifests. -/
theorem encrypt_ok (hlib : lib.Inverts) (hservice : service.Faithful) {depth : Nat} {value : Json}
    {binding : StorageBinding} {ciphertext : String}
    (hrun : encrypt lib service depth value binding h = (.ok ciphertext, h')) :
    GoesOn h h' ∧ hasCipherPrefix ciphertext = true ∧
      ∀ later depth', depth ≤ depth' → GoesOn h' later →
        decrypt lib service later depth' ciphertext binding = .ok value := by
  induction depth generalizing value binding h h' ciphertext with
  | zero => cases hrun
  | succ depth ih =>
      unfold encrypt at hrun
      dsimp only at hrun
      split at hrun
      · cases hrun
      next raw hraw =>
      split at hrun
      · cases hrun
      next hvalue =>
      split at hrun
      · next hsmall =>
          obtain ⟨data, -, hciphertext, -, -⟩ := transitEncrypt_ok hrun
          have hgoes := transitEncrypt_goesOn hrun
          refine ⟨hgoes, hasCipherPrefix_ciphertext hciphertext, ?_⟩
          intro later depth' hdepth hlater
          obtain ⟨depth', rfl⟩ : ∃ d, depth' = d + 1 := ⟨depth' - 1, by omega⟩
          unfold decrypt
          rw [not_startsWith_large hciphertext, if_neg (by decide)]
          exact bind_eq_ok.mpr ⟨raw, transitDecrypt_encrypt hservice hsmall hrun hlater,
            hlib.loads_dumps hraw⟩
      split at hrun
      · cases hrun
      next chunks middle hchunks =>
      split at hrun
      · cases hrun
      next manifest last hmanifest =>
      cases hrun
      have hpieces : ∀ c ∈ (slices raw).zipIdx, c.1.length ≤ maxJson :=
        fun c hc => slice_length (List.fst_mem_of_mem_zipIdx hc)
      obtain ⟨hgoes, hdecrypts⟩ := encryptChunks_ok hservice hpieces hchunks
      obtain ⟨hgoes', -, hinner⟩ := ih hmanifest
      refine ⟨hgoes.trans hgoes', hasCipherPrefix_large _, ?_⟩
      intro later depth' hdepth hlater
      obtain ⟨depth', rfl⟩ : ∃ d, depth' = d + 1 := ⟨depth' - 1, by omega⟩
      exact decrypt_envelope hlib hraw (by omega) (hinner later depth' (by omega) hlater)
        (hdecrypts later (hgoes'.trans hlater))

/-- What was encrypted under a binding is decrypted under it, whatever its size and whatever has
been encrypted since, by a service that still has the keys; a text is read back by `read_text`.  A
value that does not fit in one ciphertext comes back through the manifest and the chunks of its
envelope, and the induction on the depth covers the manifest, which is encrypted itself. -/
theorem decrypt_encrypt (hlib : lib.Inverts) (hservice : service.Faithful) {depth : Nat}
    {value : Json} {binding : StorageBinding} {ciphertext : String}
    (hrun : encrypt lib service depth value binding h = (.ok ciphertext, h')) {later : History}
    (hlater : GoesOn h' later) {depth' : Nat} (hdepth : depth ≤ depth') :
    decrypt lib service later depth' ciphertext binding = .ok value ∧
      ∀ text lookup, value = .str text → readText
        (openBaoPrivateDataCipher lib service lookup depth' later) ciphertext binding = .ok text := by
  obtain ⟨-, hprefix, hdecrypts⟩ := encrypt_ok hlib hservice hrun
  have hdecrypt := hdecrypts later depth' hdepth hlater
  refine ⟨hdecrypt, fun text lookup htext => ?_⟩
  have hcipher : (openBaoPrivateDataCipher lib service lookup depth' later).decrypt ciphertext
      binding = .ok (.str text) := hdecrypt.trans (by rw [htext])
  unfold readText
  rw [if_pos hprefix, hcipher]

end RoundTrip

/-! ### A Transit in the clear

Its ciphertexts are the plaintexts in Base64, which it looks up among the requests. -/

/-- The ciphertext of these bytes, in the clear. -/
def clearCiphertext (raw : Bytes) : String := "vault:v1:" ++ String.ofList (b64encode raw)

/-- A Transit that answers every request in the clear, and decrypts what it was asked before. -/
def clearTransit : Transit where
  encrypt := fun _ r => .ok (clearCiphertext r.plaintext)
  decrypt := fun requests ciphertext data =>
    match requests.find? (fun r => clearCiphertext r.plaintext = ciphertext ∧ r.associatedData = data)
      with
    | some r => .ok r.plaintext
    | none => .error .privateDataUnavailable

theorem clearTransit_faithful : clearTransit.Faithful := by
  intro requests raw data ciphertext _ hanswer later
  have hciphertext : clearCiphertext raw = ciphertext := Except.ok.inj hanswer
  have hmem : (⟨raw, data⟩ : Request) ∈ requests ++ ⟨raw, data⟩ :: later := by simp
  unfold clearTransit
  dsimp only
  split
  · next r hfound =>
      have hr := List.find?_some hfound
      simp only [decide_eq_true_eq] at hr
      have hlists := String.append_right_inj _ |>.mp (hr.1.trans hciphertext.symm)
      rw [b64encode_injective (String.ofList_injective hlists)]
  · next hnone =>
      have hmiss := List.find?_eq_none.mp hnone _ hmem
      simp only [hciphertext, and_self, decide_true, not_true_eq_false] at hmiss

theorem isBase64_digit {n : Nat} (h : n < 64) : isBase64 (b64Digit n) = true := by
  have hall : ∀ m : Fin 64, isBase64 (b64Digit m) = true := by decide
  exact hall ⟨n, h⟩

/-- What follows the digits of an encoding is its padding: none, one character or two. -/
theorem padding_b64encode (bytes : Bytes) :
    (b64encode bytes).dropWhile isBase64 ∈ [[], ['='], ['=', '=']] := by
  have hpad : isBase64 '=' = false := by decide
  induction bytes using b64encode.induct with
  | case1 a b c rest ih =>
      have ha := a.toNat_lt
      have hb := b.toNat_lt
      have hc := c.toNat_lt
      rw [b64encode, List.dropWhile_cons_of_pos (isBase64_digit (by omega)),
        List.dropWhile_cons_of_pos (isBase64_digit (by omega)),
        List.dropWhile_cons_of_pos (isBase64_digit (by omega)),
        List.dropWhile_cons_of_pos (isBase64_digit (by omega))]
      exact ih
  | case2 a b =>
      have ha := a.toNat_lt
      have hb := b.toNat_lt
      rw [b64encode, List.dropWhile_cons_of_pos (isBase64_digit (by omega)),
        List.dropWhile_cons_of_pos (isBase64_digit (by omega)),
        List.dropWhile_cons_of_pos (isBase64_digit (by omega)),
        List.dropWhile_cons_of_neg (by rw [hpad]; decide)]
      decide
  | case3 a =>
      have ha := a.toNat_lt
      rw [b64encode, List.dropWhile_cons_of_pos (isBase64_digit (by omega)),
        List.dropWhile_cons_of_pos (isBase64_digit (by omega)),
        List.dropWhile_cons_of_neg (by rw [hpad]; decide)]
      decide
  | case4 => decide

/-- The encoding of bytes starts with a digit. -/
theorem b64encode_head {bytes : Bytes} (h : bytes ≠ []) :
    ∃ first rest, b64encode bytes = first :: rest ∧ isBase64 first = true := by
  match bytes, h with
  | a :: b :: c :: rest, _ =>
      have ha := a.toNat_lt
      exact ⟨_, _, rfl, isBase64_digit (by omega)⟩
  | [a, b], _ =>
      have ha := a.toNat_lt
      exact ⟨_, _, rfl, isBase64_digit (by omega)⟩
  | [a], _ =>
      have ha := a.toNat_lt
      exact ⟨_, _, rfl, isBase64_digit (by omega)⟩

/-- What Transit in the clear answers is a ciphertext. -/
theorem isCiphertext_clear {raw : Bytes} (h : raw ≠ []) : isCiphertext (clearCiphertext raw) = true := by
  have hlist : (clearCiphertext raw).toList =
      'v' :: 'a' :: 'u' :: 'l' :: 't' :: ':' :: 'v' :: '1' :: ':' :: b64encode raw := by
    rw [clearCiphertext, String.toList_append, String.toList_ofList, String.toList_ofList]
    rfl
  have hpadding := padding_b64encode raw
  obtain ⟨first, rest, hencode, hfirst⟩ := b64encode_head h
  have hshorter : ((b64encode raw).dropWhile isBase64).length < (b64encode raw).length := by
    rw [hencode, List.dropWhile_cons_of_pos hfirst, List.length_cons]
    exact Nat.lt_succ_of_le (List.dropWhile_suffix _).length_le
  unfold isCiphertext
  rw [hlist]
  change (('1' ≤ '1' && '1' ≤ '9') &&
    decide (((b64encode raw).dropWhile isBase64).length < (b64encode raw).length) &&
    ((b64encode raw).dropWhile isBase64 = [] || (b64encode raw).dropWhile isBase64 = ['='] ||
      (b64encode raw).dropWhile isBase64 = ['=', '='])) = true
  rw [decide_eq_true hshorter]
  simpa [or_assoc] using hpadding

/-- Transit in the clear answers every request that it is sent. -/
theorem transitEncrypt_clear {raw : Bytes} {binding : StorageBinding} {h : History}
    (hraw : raw ≠ []) (hbinding : binding.associatedData.isOk = true) :
    ∃ ciphertext h', transitEncrypt clearTransit raw binding h = (.ok ciphertext, h') := by
  obtain ⟨data, hdata⟩ := exists_of_isOk hbinding
  refine ⟨clearCiphertext raw, { h with requests := h.requests ++ [⟨raw, data⟩] }, ?_⟩
  unfold transitEncrypt clearTransit
  rw [hdata]
  dsimp only
  rw [if_pos (isCiphertext_clear hraw)]

/-- The chunks of a value are encrypted in the clear under the parts of a binding. -/
theorem encryptChunks_clear {binding : StorageBinding} {chunks : List (Bytes × Nat)} {h : History}
    (hchunks : ∀ c ∈ chunks, c.1 ≠ [] ∧
      (binding.part (chunkName c.2)).associatedData.isOk = true) :
    ∃ ciphertexts h', encryptChunks clearTransit binding chunks h = (.ok ciphertexts, h') := by
  induction chunks generalizing h with
  | nil => exact ⟨_, _, rfl⟩
  | cons chunk rest ih =>
      obtain ⟨hraw, hpart⟩ := hchunks chunk List.mem_cons_self
      obtain ⟨ciphertext, middle, hfirst⟩ := transitEncrypt_clear (h := h) hraw hpart
      obtain ⟨others, last, hothers⟩ :=
        ih (h := middle) (fun c hc => hchunks c (List.mem_cons_of_mem _ hc))
      refine ⟨ciphertext :: others, last, ?_⟩
      unfold encryptChunks
      rw [hfirst]
      dsimp only
      rw [hothers]

/-- The slices of a value are not empty. -/
theorem slice_ne_nil {raw slice : Bytes} (h : slice ∈ slices raw) : slice ≠ [] := by
  obtain ⟨i, hi, rfl⟩ := List.mem_map.mp h
  have hbound := List.mem_range.mp hi
  refine List.ne_nil_of_length_pos ?_
  rw [List.length_take, List.length_drop]
  omega

/-- A large value is put into an envelope, of its manifest and one ciphertext for each slice;
nothing else can happen where the bindings of all the parts have associated data. -/
theorem encrypt_clear_large {lib : Encodings} {value : Json} {raw manifest : Bytes}
    {binding : StorageBinding} {h : History} (hraw : lib.dumps value = .ok raw)
    (hlarge : maxJson < raw.length) (hsize : raw.length ≤ maxValue)
    (hmanifest : lib.dumps (manifestOf lib raw) = .ok manifest) (hsome : manifest ≠ [])
    (hsmall : manifest.length ≤ maxJson)
    (hpart : (binding.part "manifest").associatedData.isOk = true)
    (hparts : ∀ i < (slices raw).length,
      (binding.part (chunkName i)).associatedData.isOk = true) :
    ∃ envelope h', encrypt lib clearTransit 2 value binding h = (.ok (largePrefix ++ envelope), h') := by
  have hchunks : ∀ c ∈ (slices raw).zipIdx, c.1 ≠ [] ∧
      (binding.part (chunkName c.2)).associatedData.isOk = true := by
    intro c hc
    exact ⟨slice_ne_nil (List.fst_mem_of_mem_zipIdx hc), hparts c.2 (List.snd_lt_of_mem_zipIdx hc)⟩
  have hlimit : maxJson ≤ maxValue := by decide
  unfold encrypt
  rw [hraw]
  dsimp only
  rw [if_neg (Nat.not_lt.mpr hsize), if_neg (Nat.not_le.mpr hlarge)]
  obtain ⟨ciphertexts, middle, hciphertexts⟩ := encryptChunks_clear
    (h := { h with calls := h.calls ++ [(value, binding)] }) hchunks
  rw [hciphertexts]
  dsimp only
  unfold encrypt
  rw [hmanifest]
  dsimp only
  rw [if_neg (Nat.not_lt.mpr (hsmall.trans hlimit)), if_pos hsmall]
  obtain ⟨inner, last, hinner⟩ := transitEncrypt_clear (h := { middle with
    calls := middle.calls ++ [(manifestOf lib raw, binding.part "manifest")] }) hsome hpart
  rw [hinner]
  exact ⟨_, _, rfl⟩

/-- The parts of an envelope, each character after an underscore and each part before a stop. -/
def printParts (parts : List (List Char)) : List Char :=
  parts.flatMap (fun part => part.flatMap (fun c => ['_', c]) ++ ['.'])

/-- Reads the parts of an envelope back. -/
def readParts : List Char → List (List Char)
  | '.' :: rest => [] :: readParts rest
  | '_' :: c :: rest =>
      match readParts rest with
      | [] => []
      | part :: parts => (c :: part) :: parts
  | _ => []

theorem readParts_printParts (parts : List (List Char)) : readParts (printParts parts) = parts := by
  induction parts with
  | nil => rfl
  | cons part parts ih =>
      rw [printParts, List.flatMap_cons, ← printParts]
      induction part with
      | nil =>
          rw [List.flatMap_nil, List.nil_append, List.singleton_append, readParts, ih]
      | cons c part ihpart =>
          rw [List.flatMap_cons, List.append_assoc, List.append_assoc, List.cons_append,
            List.singleton_append, readParts, ← List.append_assoc, ihpart]

/-! ### A text of 300000 characters -/

/-- The text. -/
def largeText : String := String.ofList (List.replicate 300000 'a')

/-- Its JSON text. -/
def largeRaw : Bytes := 34 :: (List.replicate 300000 97 ++ [34])

/-- What the sample takes for the SHA-256 of the JSON text. -/
def largeDigest : String := "0123456789abcdef0123456789abcdef0123456789abcdef0123456789abcdef"

/-- The JSON text of the manifest. -/
def largeManifest : Bytes := utf8 ("\x7b\"bytes\":300002,\"count\":5,\"sha256\":\"" ++ largeDigest ++ "\"\x7d")

/-- Libraries that print and read this text and its manifest. -/
def largeEncodings : Encodings where
  dumps
    | .str text => if text = largeText then .ok largeRaw else .error (.other "not in the sample")
    | .obj [("bytes", .num bytes), ("count", .num count), ("sha256", .str digest)] =>
        if bytes = 300002 ∧ count = 5 ∧ digest = largeDigest then .ok largeManifest
        else .error (.other "not in the sample")
    | _ => .error (.other "not in the sample")
  loads := fun raw =>
    if raw = largeManifest then .ok (.obj [("bytes", .num 300002), ("count", .num 5),
      ("sha256", .str largeDigest)])
    else .ok (.str largeText)
  dumpEnvelope := fun manifest chunks =>
    String.ofList (printParts (manifest.toList :: chunks.map String.toList))
  loadEnvelope := fun text =>
    match (readParts text.toList).map String.ofList with
    | manifest :: chunks => .ok (.obj [("manifest", .str manifest), ("chunks", .arr (chunks.map .str))])
    | [] => .error (.other "not in the sample")
  sha256 := fun _ => largeDigest

theorem largeRaw_length : largeRaw.length = 300002 := by
  rw [largeRaw, List.length_cons, List.length_append, List.length_replicate, List.length_singleton]

theorem largeManifest_head : largeManifest.head? = some 123 := by decide +kernel

theorem largeManifest_length : largeManifest.length ≤ maxJson := by decide +kernel

theorem largeRaw_ne : largeRaw ≠ largeManifest := by
  intro h
  have hhead := congrArg List.head? h
  rw [largeManifest_head, largeRaw] at hhead
  exact absurd hhead (by decide)

theorem largeEncodings_inverts : largeEncodings.Inverts where
  loads_dumps := by
    intro value raw h
    unfold largeEncodings at h ⊢
    dsimp only at h ⊢
    split at h
    · split at h
      · next htext =>
          cases h
          rw [if_neg largeRaw_ne, htext]
      · cases h
    · split at h
      · next hnumbers =>
          obtain ⟨rfl, rfl, rfl⟩ := hnumbers
          cases h
          rw [if_pos rfl]
      · cases h
    · cases h
  loads_envelope := by
    intro manifest chunks
    unfold largeEncodings
    dsimp only
    rw [String.toList_ofList, readParts_printParts, List.map_cons, List.map_map]
    simp [Function.comp_def]

theorem largeEncodings_manifest :
    largeEncodings.dumps (manifestOf largeEncodings largeRaw) = .ok largeManifest := by
  have hmanifest : manifestOf largeEncodings largeRaw = .obj [("bytes", .num 300002),
      ("count", .num 5), ("sha256", .str largeDigest)] := by
    have hcount : (slices largeRaw).length = 5 := by rw [slices_length, largeRaw_length]
    rw [manifestOf, largeRaw_length, hcount]
    rfl
  rw [hmanifest]
  unfold largeEncodings
  simp

theorem largeEncodings_text : largeEncodings.dumps (.str largeText) = .ok largeRaw := by
  unfold largeEncodings
  dsimp only
  rw [if_pos rfl]

/-- A text of 300000 characters is put into an envelope with five chunks, and read back. -/
theorem decrypt_encrypt_large :
    maxJson < largeRaw.length ∧ ∃ envelope h',
      encrypt largeEncodings clearTransit 2 (.str largeText) ⟨"o", "r", "f"⟩ ⟨[], []⟩ =
        (.ok (largePrefix ++ envelope), h') ∧
      decrypt largeEncodings clearTransit h' 2 (largePrefix ++ envelope) ⟨"o", "r", "f"⟩ =
        .ok (.str largeText) ∧
      ∀ text lookup, Json.str largeText = .str text → readText
        (openBaoPrivateDataCipher largeEncodings clearTransit lookup 2 h') (largePrefix ++ envelope)
        ⟨"o", "r", "f"⟩ = .ok text := by
  have hlarge : maxJson < largeRaw.length := by rw [largeRaw_length]; decide
  have hparts : ∀ i < (slices largeRaw).length,
      ((⟨"o", "r", "f"⟩ : StorageBinding).part (chunkName i)).associatedData.isOk = true := by
    rw [slices_length, largeRaw_length]
    decide +kernel
  have hsome : largeManifest ≠ [] := by
    intro h
    have hhead := largeManifest_head
    rw [h] at hhead
    cases hhead
  obtain ⟨envelope, h', hrun⟩ := encrypt_clear_large (h := ⟨[], []⟩) largeEncodings_text hlarge
    (by rw [largeRaw_length]; decide) largeEncodings_manifest hsome largeManifest_length
    (by decide +kernel) hparts
  exact ⟨hlarge, envelope, h', hrun, decrypt_encrypt largeEncodings_inverts clearTransit_faithful
    hrun (List.prefix_refl _) (Nat.le_refl _)⟩

end PortRag.Security
