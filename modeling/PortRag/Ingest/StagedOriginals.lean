import PortRag.Ingest.Staging

set_option autoImplicit false

/-!
# Staged originals, read back

The reader accepts every file that the writer makes, and hands out nothing but what was saved:
each line opens only in its own place, and the manifest tells whether all of them are there.
-/

namespace PortRag.Ingest

open PortRag.Foundation PortRag.Db PortRag.Security

/-! ## Reading back -/

section ReadBack

variable {lib : Encodings} {cipher : PrivateDataCipher} {owner name : String}

theorem lineChar_ciphertext : ∀ c ∈ "ciphertext".toList, lineChar c = true :=
  List.all_eq_true.mp (by decide)

theorem lineChar_manifest : ∀ c ∈ "manifest".toList, lineChar c = true :=
  List.all_eq_true.mp (by decide)

/-- The line of a chunk, as the writer has left it, adds the chunk. -/
theorem readLine_chunk (hlib : Prints lib) {r : Reading} (hr : r.manifest = .null) {chunk : Bytes}
    {ciphertext : String} (hchars : ∀ c ∈ ciphertext.toList, lineChar c = true)
    (hlength : ciphertext.length ≤ 524000) (hchunk : chunk.length ≤ 65536)
    (hsize : r.content.length + chunk.length ≤ maxUpload)
    (hdecrypt : cipher.decrypt ciphertext (lineBinding owner name (.chunk r.count)) =
      .ok (chunkValue chunk)) :
    readLine lib cipher owner name r (dumpLine "ciphertext" ciphertext ++ [newline]) =
      .ok { r with count := r.count + 1, content := r.content ++ chunk } := by
  have hline : (dumpLine "ciphertext" ciphertext ++ [newline]).length ≤ 524288 := by
    rw [List.length_append, dumpLine_length lineChar_ciphertext hchars]
    have hword : "ciphertext".length = 10 := by decide
    simp only [List.length_cons, List.length_nil]
    omega
  unfold readLine
  rw [hr]
  dsimp only
  rw [if_neg (by omega), hlib.loads_line _ _ (.inl rfl) hchars]
  refine bind_eq_ok.mpr ⟨_, rfl, ?_⟩
  have hnone : (Json.obj [("ciphertext", .str ciphertext)]).get? "manifest" = none := rfl
  have hitem : item (Json.obj [("ciphertext", .str ciphertext)]) "ciphertext" =
      .ok (.str ciphertext) := rfl
  dsimp only
  rw [hnone]
  dsimp only
  rw [hitem]
  refine bind_eq_ok.mpr ⟨_, rfl, bind_eq_ok.mpr ⟨ciphertext, rfl, bind_eq_ok.mpr ⟨_, hdecrypt, ?_⟩⟩⟩
  dsimp only [chunkValue]
  have hvalid : (!b64valid (String.ofList (b64encode chunk)).toList) = false := by
    rw [String.toList_ofList, b64valid_encode]
    rfl
  rw [hvalid, if_neg (by decide), String.toList_ofList, b64decode_encode, if_neg ?_]
  · rfl
  · rintro (hlong | hother | hlarge)
    · omega
    · exact hother rfl
    · omega

/-- The line of the manifest. -/
theorem readLine_manifest (hlib : Prints lib) {r : Reading} (hr : r.manifest = .null)
    {ciphertext : String} (hchars : ∀ c ∈ ciphertext.toList, lineChar c = true)
    (hlength : ciphertext.length ≤ 524000) {manifest : Json}
    (hdecrypt : cipher.decrypt ciphertext (lineBinding owner name .manifest) = .ok manifest) :
    readLine lib cipher owner name r (dumpLine "manifest" ciphertext ++ [newline]) =
      .ok { r with manifest := manifest } := by
  have hline : (dumpLine "manifest" ciphertext ++ [newline]).length ≤ 524288 := by
    rw [List.length_append, dumpLine_length lineChar_manifest hchars]
    have hword : "manifest".length = 8 := by decide
    simp only [List.length_cons, List.length_nil]
    omega
  unfold readLine
  rw [hr]
  dsimp only
  rw [if_neg (by omega), hlib.loads_line _ _ (.inr rfl) hchars]
  refine bind_eq_ok.mpr ⟨_, rfl, ?_⟩
  have hsome : (Json.obj [("manifest", .str ciphertext)]).get? "manifest" =
      some (.str ciphertext) := rfl
  dsimp only
  rw [hsome]
  exact bind_eq_ok.mpr ⟨ciphertext, rfl, bind_eq_ok.mpr ⟨_, hdecrypt, rfl⟩⟩

/-- The lines of the chunks, from number `start` on: the induction is on the chunks, and the numbers
of reader and writer go together. -/
theorem readLines_chunks (hlib : Prints lib) {chunks : List Bytes} {ciphertexts : List String}
    {r : Reading} (hr : r.manifest = .null)
    (hchars : ∀ ciphertext ∈ ciphertexts, (∀ c ∈ ciphertext.toList, lineChar c = true) ∧
      ciphertext.length ≤ 524000)
    (hchunks : ∀ chunk ∈ chunks, chunk.length ≤ 65536)
    (hsize : r.content.length + chunks.flatten.length ≤ maxUpload)
    (hdecrypt : List.Forall₂ (fun (c : Bytes × Nat) ciphertext => cipher.decrypt ciphertext
      (lineBinding owner name (.chunk c.2)) = .ok (chunkValue c.1)) (chunks.zipIdx r.count)
      ciphertexts) :
    ((chunkLines ciphertexts).map (fun line => line ++ [newline])).foldlM
        (readLine lib cipher owner name) r =
      .ok { r with count := r.count + chunks.length, content := r.content ++ chunks.flatten } := by
  induction chunks generalizing r ciphertexts with
  | nil =>
      cases hdecrypt
      rw [List.flatten_nil, List.append_nil]
      rfl
  | cons chunk rest ih =>
      rw [List.zipIdx_cons] at hdecrypt
      cases hdecrypt with
      | cons hfirst hrest =>
          rename_i ciphertext ciphertexts
          obtain ⟨hplain, hlength⟩ := hchars ciphertext List.mem_cons_self
          rw [List.flatten_cons, List.length_append] at hsize
          have hline := readLine_chunk hlib hr hplain hlength (hchunks chunk List.mem_cons_self)
            (by omega) hfirst
          have hothers := ih (r := { r with count := r.count + 1, content := r.content ++ chunk })
            hr (fun c hc => hchars c (List.mem_cons_of_mem _ hc))
            (fun c hc => hchunks c (List.mem_cons_of_mem _ hc))
            (by rw [List.length_append]; omega) hrest
          rw [chunkLines, List.map_cons, List.map_cons, List.foldlM_cons, hline]
          refine bind_eq_ok.mpr ⟨_, rfl, hothers.trans ?_⟩
          simp only [List.length_cons, List.flatten_cons, List.append_assoc, Except.ok.injEq,
            Reading.mk.injEq, and_true]
          omega

/-- What has been read matches its own manifest. -/
theorem matchesUpload_manifest {r : Reading}
    (h : r.manifest = uploadManifest lib r.count r.content) : matchesUpload lib r = true := by
  have hcount : intValue (r.manifest.get? "count") = some (r.count : Int) := by
    rw [h]
    exact intValue_nat _
  have hbytes : intValue (r.manifest.get? "bytes") = some (r.content.length : Int) := by
    rw [h]
    exact intValue_nat _
  have hdigest : r.manifest.get? "sha256" = some (.str (lib.sha256 r.content)) := by
    rw [h]
    rfl
  rw [matchesUpload, hcount, hbytes, hdigest]
  simp

end ReadBack

/-! ## Nothing else is read -/

/-- File names are fresh: what opens under the binding of a line of the file `name` was encrypted
by the upload that wrote it. -/
def OnlyUpload (opens : Opens) (name : String) (calls : List (Json × StorageBinding)) : Prop :=
  ∀ ciphertext owner field value, opens ciphertext (lineBinding owner name field) = some value →
    (value, lineBinding owner name field) ∈ calls

theorem uploadField_injective : Function.Injective UploadField.text := by
  intro f g h
  have hbinding : (Cell.upload 0 "" f).bindingOf .whole = (Cell.upload 0 "" g).bindingOf .whole := by
    simp only [Cell.bindingOf, CellPart.of, Cell.binding, h]
  exact (Cell.upload.inj (Cell.bindingOf_injective hbinding).1).2.2

theorem field_of_lineBinding {owner user name name' : String} {f g : UploadField}
    (h : lineBinding owner name f = lineBinding user name' g) : f = g :=
  uploadField_injective (congrArg StorageBinding.field h)

section Tampered

variable {lib : Encodings} {cipher saving : PrivateDataCipher} {opens : Opens}
  {owner user name : String} {chunks : List Bytes} {file : Bytes}
  {calls : List (Json × StorageBinding)}

/-- The field of a line determines what was encrypted under it. -/
theorem Written.chunk_of_mem (hw : Written lib saving owner name chunks file calls) {k : Nat}
    {value : Json} (h : (value, lineBinding user name (.chunk k)) ∈ calls) :
    ∃ chunk, chunks[k]? = some chunk ∧ value = chunkValue chunk := by
  rw [hw.calls_eq] at h
  rcases List.mem_append.mp h with h | h
  · obtain ⟨⟨chunk, index⟩, hmem, heq⟩ := List.mem_map.mp h
    obtain ⟨hvalue, hbinding⟩ := Prod.mk.inj heq
    obtain rfl : index = k := UploadField.chunk.inj (field_of_lineBinding hbinding)
    exact ⟨chunk, List.mk_mem_zipIdx_iff_getElem?.mp hmem, hvalue.symm⟩
  · obtain ⟨-, hbinding⟩ := Prod.mk.inj (List.mem_singleton.mp h)
    cases field_of_lineBinding hbinding

theorem Written.manifest_of_mem (hw : Written lib saving owner name chunks file calls)
    {value : Json} (h : (value, lineBinding user name .manifest) ∈ calls) :
    value = uploadManifest lib chunks.length chunks.flatten := by
  rw [hw.calls_eq] at h
  rcases List.mem_append.mp h with h | h
  · obtain ⟨c, -, heq⟩ := List.mem_map.mp h
    obtain ⟨-, hbinding⟩ := Prod.mk.inj heq
    cases field_of_lineBinding hbinding
  · exact congrArg Prod.fst (List.mem_singleton.mp h)

/-- What a line that is accepted did: it was the manifest, or it added the bytes of a text that was
decrypted under the number of its chunk. -/
theorem readLine_ok {r r' : Reading} {line : Bytes}
    (h : readLine lib cipher user name r line = .ok r') : r.manifest = .null ∧
      ((∃ ciphertext manifest, cipher.decrypt ciphertext (lineBinding user name .manifest) =
          .ok manifest ∧ r' = { r with manifest := manifest }) ∨
        ∃ ciphertext text, cipher.decrypt ciphertext (lineBinding user name (.chunk r.count)) =
          .ok (.str text) ∧
          r' = { r with count := r.count + 1, content := r.content ++ b64decode text.toList }) := by
  unfold readLine at h
  split at h
  · next hnull =>
      refine ⟨hnull, ?_⟩
      split at h
      · cases h
      obtain ⟨value, -, h⟩ := bind_eq_ok.mp h
      split at h
      · dsimp only at h
        split at h
        · obtain ⟨ciphertext, -, h⟩ := bind_eq_ok.mp h
          obtain ⟨manifest, hdecrypt, h⟩ := bind_eq_ok.mp h
          exact .inl ⟨ciphertext, manifest, hdecrypt, (pure_eq_ok.mp h).symm⟩
        · obtain ⟨encrypted, -, h⟩ := bind_eq_ok.mp h
          obtain ⟨ciphertext, -, h⟩ := bind_eq_ok.mp h
          obtain ⟨encoded, hdecrypt, h⟩ := bind_eq_ok.mp h
          split at h
          · next text =>
              split at h
              · cases h
              split at h
              · cases h
              exact .inr ⟨ciphertext, text, hdecrypt, (pure_eq_ok.mp h).symm⟩
          · cases h
      · cases h
  · cases h

/-- What has been read is the beginning of the upload. -/
structure FromUpload (lib : Encodings) (chunks : List Bytes) (r : Reading) : Prop where
  count : r.count ≤ chunks.length
  content : r.content = (chunks.take r.count).flatten
  manifest : r.manifest = .null ∨ r.manifest = uploadManifest lib chunks.length chunks.flatten

theorem readLine_fromUpload (hw : Written lib saving owner name chunks file calls)
    (honly : OnlyUpload opens name calls) (huses : cipher.Uses opens) {r r' : Reading} {line : Bytes}
    (hr : FromUpload lib chunks r) (h : readLine lib cipher user name r line = .ok r') :
    FromUpload lib chunks r' := by
  obtain ⟨hnull, ⟨ciphertext, manifest, hdecrypt, rfl⟩ | ⟨ciphertext, text, hdecrypt, rfl⟩⟩ :=
    readLine_ok h
  · have hmem := honly _ _ _ _ (huses.decrypt_opens hdecrypt)
    exact { hr with manifest := .inr (hw.manifest_of_mem hmem) }
  · have hmem := honly _ _ _ _ (huses.decrypt_opens hdecrypt)
    obtain ⟨chunk, hchunk, hvalue⟩ := hw.chunk_of_mem hmem
    have htext : text.toList = b64encode chunk := by
      rw [Json.str.inj hvalue, String.toList_ofList]
    have hlength := (List.getElem?_eq_some_iff.mp hchunk).1
    refine ⟨hlength, ?_, .inl hnull⟩
    rw [hr.content, htext, b64decode_encode, List.take_add_one, hchunk, List.flatten_append]
    simp

theorem readLines_fromUpload (hw : Written lib saving owner name chunks file calls)
    (honly : OnlyUpload opens name calls) (huses : cipher.Uses opens) {lines : List Bytes}
    {r r' : Reading} (hr : FromUpload lib chunks r)
    (h : lines.foldlM (readLine lib cipher user name) r = .ok r') : FromUpload lib chunks r' := by
  induction lines generalizing r with
  | nil =>
      cases h
      exact hr
  | cons line rest ih =>
      rw [List.foldlM_cons] at h
      obtain ⟨middle, hfirst, hrest⟩ := bind_eq_ok.mp h
      exact ih (readLine_fromUpload hw honly huses hr hfirst) hrest

/-- The manifest tells whether all of it has been read. -/
theorem FromUpload.content_eq {r : Reading} (hr : FromUpload lib chunks r)
    (h : matchesUpload lib r = true) : r.content = chunks.flatten := by
  simp only [matchesUpload, Bool.and_eq_true, decide_eq_true_eq] at h
  rcases hr.manifest with hnull | hmanifest
  · rw [hnull] at h
    cases h.1.1
  · have hcount : intValue (r.manifest.get? "count") = some (chunks.length : Int) := by
      rw [hmanifest]
      exact intValue_nat _
    have hsame : (chunks.length : Int) = r.count := Option.some.inj (hcount.symm.trans h.1.1)
    rw [hr.content, List.take_of_length_le (by omega)]

end Tampered

/-! ## The size of a line -/

section Sizes

variable {lib : Encodings} {saving : PrivateDataCipher} {binding : StorageBinding}

/-- The ciphertext of a chunk stands in a line that the reader accepts. -/
theorem chunk_ciphertext (hlib : Prints lib) (hcompact : Compact lib saving) {chunk : Bytes}
    (hchunk : chunk.length ≤ 65536) {ciphertext : String}
    (h : saving.encrypt (chunkValue chunk) binding = .ok ciphertext) :
    (∀ c ∈ ciphertext.toList, lineChar c = true) ∧ ciphertext.length ≤ 524000 := by
  have hchars : ∀ c ∈ b64encode chunk, lineChar c = true := by
    intro c hc
    rcases mem_b64encode c hc with hc | rfl
    · rw [lineChar, hc, Bool.true_or, Bool.true_or]
    · decide
  have hascii : ∀ c ∈ '"' :: (b64encode chunk ++ ['"']), c.toNat < 128 := by
    intro c hc
    simp only [List.mem_cons, List.mem_append, List.not_mem_nil, or_false] at hc
    rcases hc with rfl | hc | rfl
    · decide
    · exact (lineChar_range (hchars c hc)).2.1
    · decide
  have hdumps := hlib.dumps_text _ hchars
  have hlength : (utf8 (String.ofList (quote (b64encode chunk)))).length ≤ 87386 := by
    rw [quote_line hchars, utf8_ofList hascii]
    simp only [List.length_map, List.length_cons, List.length_append, List.length_nil,
      b64encode_length]
    omega
  have hjson : (87386 : Nat) ≤ maxJson := by decide
  obtain ⟨hciphertext, hbound⟩ := hcompact h hdumps (by omega)
  exact ⟨lineChar_of_isCiphertext hciphertext, by omega⟩

theorem digit_range {n : Nat} : ∀ c ∈ (toString n).toList, c.toNat < 128 := by
  intro c hc
  have hdigit := toString_digits n c hc
  simp only [Char.isDigit, Bool.and_eq_true, decide_eq_true_eq, UInt32.le_iff_toNat_le] at hdigit
  have hhigh : c.toNat ≤ 57 := hdigit.2
  omega

/-- The manifest is printed in ASCII. -/
theorem manifestText_range {count bytes : Nat} {digest : String}
    (hdigest : ∀ c ∈ digest.toList, lineChar c = true) :
    ∀ c ∈ manifestText count bytes digest, c.toNat < 128 := by
  have hword : ∀ word : List Char, (∀ c ∈ word, lineChar c = true) →
      ∀ c ∈ quote word, c.toNat < 128 := by
    intro word h c hc
    rw [quote_line h] at hc
    simp only [List.mem_cons, List.mem_append, List.not_mem_nil, or_false] at hc
    rcases hc with rfl | hc | rfl
    · decide
    · exact (lineChar_range (h c hc)).2.1
    · decide
  intro c hc
  simp only [manifestText, List.mem_cons, List.mem_append, List.not_mem_nil, or_false] at hc
  rcases hc with rfl | hc | rfl | hc | rfl | hc | rfl | hc | rfl | hc | rfl | hc | rfl
  · decide
  · exact hword _ (List.all_eq_true.mp (by decide)) c hc
  · decide
  · exact digit_range c hc
  · decide
  · exact hword _ (List.all_eq_true.mp (by decide)) c hc
  · decide
  · exact digit_range c hc
  · decide
  · exact hword _ (List.all_eq_true.mp (by decide)) c hc
  · decide
  · exact hword _ hdigest c hc
  · decide

/-- So does that of the manifest. -/
theorem manifest_ciphertext (hlib : Prints lib) (hcompact : Compact lib saving) {count : Nat}
    {content : Bytes} (hcount : count ≤ content.length) (hsize : content.length ≤ maxUpload)
    {ciphertext : String}
    (h : saving.encrypt (uploadManifest lib count content) binding = .ok ciphertext) :
    (∀ c ∈ ciphertext.toList, lineChar c = true) ∧ ciphertext.length ≤ 524000 := by
  obtain ⟨hdigest, hchars⟩ := hlib.digest content
  have hmax : maxUpload < 2 ^ 63 := by decide
  have hcountLength := length_nat (n := count) (by omega)
  have hbytesLength := length_nat (n := content.length) (by omega)
  have hlength : (utf8 (String.ofList
      (manifestText count content.length (lib.sha256 content)))).length ≤ 200 := by
    rw [utf8_ofList (manifestText_range hchars), List.length_map, manifestText,
      quote_line (List.all_eq_true.mp (by decide : "count".toList.all lineChar = true)),
      quote_line (List.all_eq_true.mp (by decide : "bytes".toList.all lineChar = true)),
      quote_line (List.all_eq_true.mp (by decide : "sha256".toList.all lineChar = true)),
      quote_line hchars]
    have hfirst : "count".length = 5 := by decide
    have hsecond : "bytes".length = 5 := by decide
    have hthird : "sha256".length = 6 := by decide
    simp only [List.length_cons, List.length_append, List.length_nil, String.length_toList]
    omega
  have hjson : (200 : Nat) ≤ maxJson := by decide
  obtain ⟨hciphertext, hbound⟩ := hcompact h (hlib.dumps_manifest count content) (by omega)
  exact ⟨lineChar_of_isCiphertext hciphertext, by omega⟩

end Sizes

/-! ## The staged original as a whole -/

section Whole

variable {lib : Encodings} {cipher saving : PrivateDataCipher} {opens : Opens}
  {owner user name : String} {chunks : List Bytes} {file : Bytes}
  {calls : List (Json × StorageBinding)}

/-- The loop with the working file is the loop. -/
theorem copyLines_fst (lines : List Bytes) (r : Reading) :
    (copyLines lib cipher owner name lines r).1 =
      lines.foldlM (readLine lib cipher owner name) r := by
  induction lines generalizing r with
  | nil => rfl
  | cons line rest ih =>
      rw [copyLines, List.foldlM_cons]
      cases h : readLine lib cipher owner name r line with
      | error e => rfl
      | ok r' => exact ih r'

theorem copyLines_written {lines : List Bytes} {r r' : Reading} {written : Bytes}
    (h : copyLines lib cipher owner name lines r = (.ok r', written)) : written = r'.content := by
  induction lines generalizing r with
  | nil =>
      cases h
      rfl
  | cons line rest ih =>
      rw [copyLines] at h
      split at h
      · cases h
      · exact ih h

/-- Chunks that are read one by one are not empty. -/
theorem length_le_flatten (h : ∀ chunk ∈ chunks, chunk ≠ []) :
    chunks.length ≤ chunks.flatten.length := by
  induction chunks with
  | nil => exact Nat.le_refl _
  | cons chunk rest ih =>
      have hpos := List.length_pos_iff.mpr (h chunk List.mem_cons_self)
      have hrest := ih (fun c hc => h c (List.mem_cons_of_mem _ hc))
      rw [List.flatten_cons, List.length_append, List.length_cons]
      omega

/-- The ciphertexts of a written file fit in its lines. -/
theorem Written.ciphertexts_ok (hw : Written lib saving owner name chunks file calls)
    (hlib : Prints lib) (hcompact : Compact lib saving)
    (hchunks : ∀ chunk ∈ chunks, chunk ≠ [] ∧ chunk.length ≤ 65536) :
    (∀ ciphertext ∈ hw.ciphertexts, (∀ c ∈ ciphertext.toList, lineChar c = true) ∧
      ciphertext.length ≤ 524000) ∧
    (∀ c ∈ hw.manifest.toList, lineChar c = true) ∧ hw.manifest.length ≤ 524000 := by
  constructor
  · intro ciphertext hmem
    obtain ⟨c, hc, hencrypt⟩ := Forall₂.exists_left hw.encrypted ciphertext hmem
    exact chunk_ciphertext hlib hcompact (hchunks _ (List.fst_mem_of_mem_zipIdx hc)).2 hencrypt
  · exact manifest_ciphertext hlib hcompact (length_le_flatten (fun c hc => (hchunks c hc).1))
      hw.size hw.sealed

/-- The loop of the reader over the lines of the writer. -/
theorem Written.foldlM_lines (hw : Written lib saving owner name chunks file calls)
    (hlib : Prints lib) (huses : saving.Uses opens) (hcompact : Compact lib saving)
    (hchunks : ∀ chunk ∈ chunks, chunk ≠ [] ∧ chunk.length ≤ 65536)
    (havailable : cipher.Available opens) :
    ((chunkLines hw.ciphertexts ++ [dumpLine "manifest" hw.manifest]).map
        (fun line => line ++ [newline])).foldlM (readLine lib cipher owner name) ⟨0, [], .null⟩ =
      .ok ⟨chunks.length, chunks.flatten, uploadManifest lib chunks.length chunks.flatten⟩ := by
  obtain ⟨hciphertexts, hmanifest, hlength⟩ := hw.ciphertexts_ok hlib hcompact hchunks
  have hdecrypt : List.Forall₂ (fun (c : Bytes × Nat) ciphertext => cipher.decrypt ciphertext
      (lineBinding owner name (.chunk c.2)) = .ok (chunkValue c.1)) chunks.zipIdx
      hw.ciphertexts :=
    hw.encrypted.imp (fun _ _ h => havailable (huses.encrypt_opens h))
  have hread := readLines_chunks (r := ⟨0, [], .null⟩) hlib rfl hciphertexts
    (fun c hc => (hchunks c hc).2) (by simpa using hw.size) hdecrypt
  have hlast := readLine_manifest hlib (r := ⟨chunks.length, chunks.flatten, .null⟩) rfl hmanifest
    hlength (havailable (huses.encrypt_opens hw.sealed))
  simp only [Nat.zero_add, List.nil_append] at hread
  rw [List.map_append, List.foldlM_append, hread]
  refine bind_eq_ok.mpr ⟨_, rfl, ?_⟩
  rw [List.map_singleton, List.foldlM_cons, hlast]
  rfl

/-- The reader's lines of a written file are the writer's: no line has a newline in it, and none is
longer than what `readline` is given. -/
theorem Written.stagedLines_eq (hw : Written lib saving owner name chunks file calls)
    (hlib : Prints lib) (hcompact : Compact lib saving)
    (hchunks : ∀ chunk ∈ chunks, chunk ≠ [] ∧ chunk.length ≤ 65536) :
    stagedLines file = uploadHeader :: (chunkLines hw.ciphertexts ++
      [dumpLine "manifest" hw.manifest]).map (fun line => line ++ [newline]) := by
  obtain ⟨hciphertexts, hmanifest, hlength⟩ := hw.ciphertexts_ok hlib hcompact hchunks
  have hlines : ∀ line ∈ chunkLines hw.ciphertexts ++ [dumpLine "manifest" hw.manifest],
      newline ∉ line ∧ line.length < 524289 := by
    intro line hline
    rcases List.mem_append.mp hline with hline | hline
    · obtain ⟨ciphertext, hmem, rfl⟩ := List.mem_map.mp hline
      obtain ⟨hplain, hshort⟩ := hciphertexts ciphertext hmem
      refine ⟨newline_not_mem_dumpLine lineChar_ciphertext hplain, ?_⟩
      rw [dumpLine_length lineChar_ciphertext hplain]
      have hword : "ciphertext".length = 10 := by decide
      omega
    · rw [List.mem_singleton.mp hline]
      refine ⟨newline_not_mem_dumpLine lineChar_manifest hmanifest, ?_⟩
      rw [dumpLine_length lineChar_manifest hmanifest]
      have hword : "manifest".length = 8 := by decide
      omega
  have hheader : uploadHeader = utf8 "port-openbao-upload-v1" ++ [newline] := by decide +kernel
  have hfirst : readline newline 128 file = (uploadHeader, (chunkLines hw.ciphertexts ++
      [dumpLine "manifest" hw.manifest]).flatMap (fun line => line ++ [newline])) := by
    refine (congrArg (readline newline 128) hw.file_eq).trans ?_
    rw [hheader, List.append_assoc, List.singleton_append]
    exact readline_line (by decide +kernel) (by decide +kernel) _
  have hcount : ∀ lines : List Bytes,
      lines.length ≤ (lines.flatMap (fun line => line ++ [newline])).length := by
    intro lines
    induction lines with
    | nil => exact Nat.le_refl _
    | cons line rest ih =>
        rw [List.flatMap_cons, List.length_append, List.length_append, List.length_cons,
          List.length_singleton]
        omega
  have hfuel : (chunkLines hw.ciphertexts ++ [dumpLine "manifest" hw.manifest]).length <
      file.length := by
    have hlines := hcount (chunkLines hw.ciphertexts ++ [dumpLine "manifest" hw.manifest])
    have hfile := congrArg List.length hw.file_eq
    rw [List.length_append, hheader, List.length_append, List.length_singleton] at hfile
    omega
  unfold stagedLines
  rw [hfirst]
  dsimp only
  rw [readlines_lines hlines hfuel]

variable {env : DecryptEnv} {α : Type} {body : Bytes → Except Exc α} {memory : List WorkingFile}

/-- The `finally` blocks leave the memory filesystem as it was. -/
theorem cleaned (hfresh : ∀ f ∈ memory, f.folder ≠ env.folder) (written : Option Bytes) :
    removeFolder env.folder (unlink env.folder name (match written with
      | none => memory
      | some content => ⟨env.folder, name, content⟩ :: memory)) = memory := by
  have hunlink : unlink env.folder name memory = memory := by
    refine List.filter_eq_self.mpr fun f hf => ?_
    exact decide_eq_true (fun h => hfresh f hf h.1)
  have hremove : removeFolder env.folder memory = memory := by
    refine List.filter_eq_self.mpr fun f hf => ?_
    exact decide_eq_true (hfresh f hf)
  cases written with
  | none => rw [hunlink, hremove]
  | some content =>
      dsimp only
      rw [unlink, List.filter_cons_of_neg (by simp), ← unlink, hunlink, hremove]

/-- Whatever happens, the working file is gone afterwards. -/
theorem decryptedPath_memory (hfresh : ∀ f ∈ memory, f.folder ≠ env.folder) (userId : Uuid)
    (file : StagedFile) : (decryptedPath env userId name file body memory).memory = memory := by
  unfold decryptedPath
  split
  · rfl
  split
  · rfl
  split
  · rfl
  · exact cleaned hfresh _

/-- What is handed out is the whole of what the manifest tells. -/
theorem attempt_yielded {lines : Option (List Bytes)} {content : Bytes}
    (h : (attempt env owner name lines body).yielded = some content) :
    ∃ (read : List Bytes) (r : Reading), read.foldlM (readLine env.lib env.cipher owner name) ⟨0, [], .null⟩ = .ok r ∧
      matchesUpload env.lib r = true ∧ content = r.content := by
  rcases lines with - | (- | ⟨header, rest⟩)
  · cases h
  · cases h
  · unfold attempt at h
    dsimp only at h
    split at h
    · cases h
    · split at h
      · cases h
      · next r written hcopy =>
          split at h
          · next hmatches =>
              split at h
              · cases h
              · refine ⟨rest, r, ?_, hmatches, ?_⟩
                · rw [← copyLines_fst, hcopy]
                · rw [← copyLines_written hcopy]
                  exact (Option.some.inj h).symm
          · cases h

theorem decryptedPath_yielded {userId : Uuid} {file : StagedFile} {content : Bytes}
    (h : (decryptedPath env userId name file body memory).yielded = some content) :
    ∃ (read : List Bytes) (r : Reading), read.foldlM (readLine env.lib env.cipher userId.str name) ⟨0, [], .null⟩ = .ok r ∧
      matchesUpload env.lib r = true ∧ content = r.content := by
  unfold decryptedPath at h
  split at h
  · cases h
  split at h
  · cases h
  split at h
  · cases h
  · exact attempt_yielded h

/-- A use of the path of a written file hands out the bytes that were delivered, and leaves the
memory as it was. -/
theorem Written.decryptedPath_eq {userId : Uuid}
    (hw : Written env.lib saving userId.str name chunks file calls) (hlib : Prints env.lib)
    (huses : saving.Uses opens) (hcompact : Compact env.lib saving)
    (hchunks : ∀ chunk ∈ chunks, chunk ≠ [] ∧ chunk.length ≤ 65536)
    (havailable : env.cipher.Available opens) (hvolatile : env.volatile = true)
    (hactive : ∀ k, env.admission k = .ok ()) (hfresh : ∀ f ∈ memory, f.folder ≠ env.folder) :
    decryptedPath env userId name ⟨false, some (stagedLines file)⟩ body memory =
      ⟨some chunks.flatten, body chunks.flatten, memory⟩ := by
  have hlines := hw.foldlM_lines hlib huses hcompact hchunks havailable
  rw [← copyLines_fst] at hlines
  have hattempt : attempt env userId.str name (some (stagedLines file)) body =
      ⟨some chunks.flatten, body chunks.flatten, some chunks.flatten⟩ := by
    rw [hw.stagedLines_eq hlib hcompact hchunks]
    unfold attempt
    dsimp only
    rw [if_neg (fun h => h rfl)]
    split
    · next e written hcopy =>
        rw [hcopy] at hlines
        cases hlines
    · next r written hcopy =>
        rw [hcopy] at hlines
        cases hlines
        rw [copyLines_written hcopy, matchesUpload_manifest rfl, if_pos rfl, hactive 1]
  have hclean : removeFolder env.folder (unlink env.folder name
      (⟨env.folder, name, chunks.flatten⟩ :: memory)) = memory := cleaned hfresh (some chunks.flatten)
  unfold decryptedPath
  rw [hactive 0]
  dsimp only at hclean ⊢
  rw [hvolatile, hattempt]
  dsimp only [Bool.not_true]
  rw [if_neg (by decide), if_neg (by decide), hclean]

end Whole

/-! ## Saved and read -/

section SaveAndRead

variable {saving : SaveEnv} {opens : Opens} {userId : Uuid} {reads : List Bytes} {path : StagedPath}

/-- The chunks that a save writes are those delivered before the first empty one. -/
theorem delivered_chunks (hreads : ∀ chunk ∈ reads, chunk.length ≤ 65536) :
    ∀ chunk ∈ reads.takeWhile (fun chunk => chunk ≠ []), chunk ≠ [] ∧ chunk.length ≤ 65536 := by
  intro chunk hchunk
  have hkept := List.mem_takeWhile_imp hchunk
  simp only [decide_eq_true_eq] at hkept
  exact ⟨hkept, hreads chunk (List.takeWhile_subset _ hchunk)⟩

/-- What was saved is read back while nothing has failed. -/
theorem saved_is_read (hlib : Prints saving.lib) (huses : saving.cipher.Uses opens)
    (hcompact : Compact saving.lib saving.cipher)
    (hreads : ∀ chunk ∈ reads, chunk.length ≤ 65536)
    (hsave : (save saving userId reads).result = .ok path) {α : Type} {env : DecryptEnv}
    (hsame : env.lib = saving.lib) (body : Bytes → Except Exc α) {memory : List WorkingFile}
    (hfresh : ∀ f ∈ memory, f.folder ≠ env.folder) (havailable : env.cipher.Available opens)
    (hvolatile : env.volatile = true) (hactive : ∀ k, env.admission k = .ok ()) :
    ∃ file, (save saving userId reads).file = some file ∧
      decryptedPath env userId path.name ⟨false, some (stagedLines file)⟩ body memory =
        ⟨some (delivered reads), body (delivered reads), memory⟩ := by
  obtain ⟨hname, file, hfile, ⟨hw⟩⟩ := save_ok hsave
  rw [← hname, ← hsame] at hw
  rw [← hsame] at hlib hcompact
  exact ⟨file, hfile, hw.decryptedPath_eq hlib huses hcompact (delivered_chunks hreads) havailable
    hvolatile hactive hfresh⟩

/-- Through OpenBao it is, where Transit answers with ciphertexts that are short enough. -/
theorem saved_is_read_openBao {service : Transit}
    {lookup : String → StorageBinding → Except Exc String} {depth : Nat} {h : History}
    (hcipher : saving.cipher = openBaoPrivateDataCipher saving.lib service lookup depth h)
    (hservice : ∀ {requests raw data ciphertext},
      service.encrypt requests ⟨raw, data⟩ = .ok ciphertext →
      ciphertext.length ≤ 2 * raw.length + 1024)
    (hlib : Prints saving.lib) (huses : saving.cipher.Uses opens)
    (hreads : ∀ chunk ∈ reads, chunk.length ≤ 65536)
    (hsave : (save saving userId reads).result = .ok path) {α : Type} {env : DecryptEnv}
    (hsame : env.lib = saving.lib) (body : Bytes → Except Exc α) {memory : List WorkingFile}
    (hfresh : ∀ f ∈ memory, f.folder ≠ env.folder) (havailable : env.cipher.Available opens)
    (hvolatile : env.volatile = true) (hactive : ∀ k, env.admission k = .ok ()) :
    ∃ file, (save saving userId reads).file = some file ∧
      decryptedPath env userId path.name ⟨false, some (stagedLines file)⟩ body memory =
        ⟨some (delivered reads), body (delivered reads), memory⟩ := by
  have hcompact : Compact saving.lib saving.cipher := by
    rw [hcipher]
    exact compact_openBao hservice lookup depth h
  exact saved_is_read hlib huses hcompact hreads hsave hsame body hfresh havailable hvolatile hactive

end SaveAndRead

/-- Staging keeps an upload to the byte.  A path that `save` returned is used with exactly the
bytes that were delivered; whatever is found at the path later, nothing else is ever handed out;
and the working file is gone afterwards. -/
theorem staged_upload {saving : SaveEnv} {opens : Opens} (hlib : Prints saving.lib)
    (huses : saving.cipher.Uses opens) (hcompact : Compact saving.lib saving.cipher)
    {userId : Uuid} {reads : List Bytes} (hreads : ∀ chunk ∈ reads, chunk.length ≤ 65536)
    {path : StagedPath} (hsave : (save saving userId reads).result = .ok path)
    (honly : OnlyUpload opens path.name (save saving userId reads).calls)
    {α : Type} {env : DecryptEnv} (hsame : env.lib = saving.lib) (hread : env.cipher.Uses opens)
    (body : Bytes → Except Exc α) {memory : List WorkingFile}
    (hfresh : ∀ f ∈ memory, f.folder ≠ env.folder) :
    (env.cipher.Available opens → env.volatile = true → (∀ k, env.admission k = .ok ()) →
      ∃ file, (save saving userId reads).file = some file ∧
        decryptedPath env userId path.name ⟨false, some (stagedLines file)⟩ body memory =
          ⟨some (delivered reads), body (delivered reads), memory⟩) ∧
    ∀ (user : Uuid) (misplaced : Bool) (found : Option Bytes),
      (∀ content, (decryptedPath env user path.name ⟨misplaced, found.map stagedLines⟩ body
        memory).yielded = some content → content = delivered reads) ∧
      (decryptedPath env user path.name ⟨misplaced, found.map stagedLines⟩ body memory).memory =
        memory := by
  obtain ⟨hname, file, hfile, ⟨hw⟩⟩ := save_ok hsave
  rw [← hname] at hw
  constructor
  · exact saved_is_read hlib huses hcompact hreads hsave hsame body hfresh
  · intro user misplaced found
    refine ⟨fun content hcontent => ?_, decryptedPath_memory hfresh user _⟩
    obtain ⟨lines, r, hlines, hmatches, rfl⟩ := decryptedPath_yielded hcontent
    rw [hsame] at hlines hmatches
    have hstart : FromUpload saving.lib (reads.takeWhile (fun chunk => chunk ≠ [])) ⟨0, [], .null⟩ :=
      ⟨Nat.zero_le _, rfl, .inl rfl⟩
    exact (readLines_fromUpload hw honly hread hstart hlines).content_eq hmatches

/-! ### An upload of two bytes -/

/-- What the sample takes for a SHA-256. -/
def sampleDigest : String := String.ofList (List.replicate 64 '0')

/-- Libraries that print the values of staging and read its lines. -/
def stagingEncodings : Encodings where
  dumps := fun value =>
    match value with
    | .str text => .ok (utf8 (String.ofList (quote text.toList)))
    | .obj _ =>
        match value.get? "count", value.get? "bytes", value.get? "sha256" with
        | some (.num count), some (.num bytes), some (.str digest) =>
            .ok (utf8 (String.ofList (manifestText count.num.toNat bytes.num.toNat digest)))
        | _, _, _ => .error (.other "not in the sample")
    | _ => .error (.other "not in the sample")
  loads := fun raw =>
    let text := raw.map (fun b => Char.ofNat b.toNat)
    if "\x7b\"ciphertext\":\"".toList.isPrefixOf text then
      .ok (.obj [("ciphertext", .str (String.ofList ((text.drop 15).takeWhile lineChar)))])
    else .ok (.obj [("manifest", .str (String.ofList ((text.drop 13).takeWhile lineChar)))])
  dumpEnvelope := fun manifest _ => manifest
  loadEnvelope := fun _ => .error (.other "not in the sample")
  sha256 := fun _ => sampleDigest

/-- The text of a line of the sample. -/
theorem dumpLine_chars {member text : String} (hmember : ∀ c ∈ member.toList, lineChar c = true)
    (htext : ∀ c ∈ text.toList, lineChar c = true) :
    (dumpLine member text ++ [newline]).map (fun b => Char.ofNat b.toNat) =
      ('{' :: '"' :: (member.toList ++ ['"', ':', '"'])) ++ (text.toList ++ ['"', '}', '\n']) := by
  have hback : ∀ cs : List Char, (∀ c ∈ cs, c.toNat < 128) →
      (cs.map (fun c => UInt8.ofNat c.toNat)).map (fun b => Char.ofNat b.toNat) = cs := by
    intro cs hcs
    rw [List.map_map]
    refine (List.map_congr_left fun c hc => ?_).trans (List.map_id cs)
    have hlow := hcs c hc
    change Char.ofNat (UInt8.ofNat c.toNat).toNat = c
    rw [UInt8.toNat_ofNat_of_lt' (lt_trans hlow (by decide)), Char.ofNat_toNat]
  have hnewline : [newline].map (fun b => Char.ofNat b.toNat) = ['\n'] := by decide
  rw [List.map_append, hnewline, dumpLine_eq hmember htext, hback]
  · simp only [List.append_assoc, List.cons_append, List.nil_append]
  · intro c hc
    simp only [List.mem_cons, List.mem_append, List.not_mem_nil, or_false] at hc
    rcases hc with rfl | (rfl | hc | rfl) | rfl | (rfl | hc | rfl) | rfl
    · decide
    · decide
    · exact (lineChar_range (hmember c hc)).2.1
    · decide
    · decide
    · decide
    · exact (lineChar_range (htext c hc)).2.1
    · decide
    · decide

theorem takeWhile_line {text : List Char} (h : ∀ c ∈ text, lineChar c = true) :
    (text ++ ['"', '}', '\n']).takeWhile lineChar = text := by
  rw [List.takeWhile_append_of_pos h, List.takeWhile_cons_of_neg (by decide), List.append_nil]

/-- The encodings of the sample print a line as the libraries do. -/
theorem stagingEncodings_prints : Prints stagingEncodings where
  loads_line := by
    intro member text hmember htext
    unfold stagingEncodings
    dsimp only
    rcases hmember with rfl | rfl
    · have hstart : '{' :: '"' :: ("ciphertext".toList ++ ['"', ':', '"']) =
          "\x7b\"ciphertext\":\"".toList := by decide
      have hlength : "\x7b\"ciphertext\":\"".toList.length = 15 := by decide
      rw [dumpLine_chars lineChar_ciphertext htext, hstart,
        if_pos (List.isPrefixOf_iff_prefix.mpr (List.prefix_append _ _)), ← hlength,
        List.drop_left, takeWhile_line htext, String.ofList_toList]
    · have hstart : '{' :: '"' :: ("manifest".toList ++ ['"', ':', '"']) =
          "\x7b\"manifest\":\"".toList := by decide
      have hlength : "\x7b\"manifest\":\"".toList.length = 13 := by decide
      have hother : "\x7b\"ciphertext\":\"".toList = '{' :: '"' :: 'c' ::
          "iphertext\":\"".toList := by decide
      have hmanifest : "\x7b\"manifest\":\"".toList = '{' :: '"' :: 'm' ::
          "anifest\":\"".toList := by decide
      rw [dumpLine_chars lineChar_manifest htext, hstart, if_neg ?_, ← hlength, List.drop_left,
        takeWhile_line htext, String.ofList_toList]
      rw [hother, hmanifest]
      simp [List.isPrefixOf]
  dumps_text := by
    intro text htext
    unfold stagingEncodings
    dsimp only
    rw [String.toList_ofList]
  dumps_manifest := fun _ _ => rfl
  digest := fun _ => ⟨(by decide : sampleDigest.length = 64),
    List.all_eq_true.mp (by decide : sampleDigest.toList.all lineChar = true)⟩

/-- The manifest of the sample, recognised. -/
def isSampleManifest : Json → Bool
  | .obj [(first, .num count), (second, .num bytes), (third, .str digest)] =>
      first = "count" && second = "bytes" && third = "sha256" && count = (1 : Nat) &&
        bytes = (2 : Nat) && digest = sampleDigest
  | _ => false

theorem eq_of_isSampleManifest {value : Json} (h : isSampleManifest value = true) :
    value = uploadManifest stagingEncodings 1 [104, 105] := by
  unfold isSampleManifest at h
  split at h
  · simp only [Bool.and_eq_true, decide_eq_true_eq] at h
    obtain ⟨⟨⟨⟨⟨rfl, rfl⟩, rfl⟩, rfl⟩, rfl⟩, rfl⟩ := h
    rfl
  · cases h

/-- What the ciphertexts of the sample open to. -/
def stagingOpens : Opens := fun ciphertext binding =>
  if ciphertext = "vault:v1:AA==" ∧ binding = lineBinding (Uuid.str 1) "f" (.chunk 0) then
    some (chunkValue [104, 105])
  else if ciphertext = "vault:v1:AQ==" ∧ binding = lineBinding (Uuid.str 1) "f" .manifest then
    some (uploadManifest stagingEncodings 1 [104, 105])
  else none

/-- A cipher for the two lines of the sample. -/
def stagingCipher : PrivateDataCipher where
  encrypt := fun value binding =>
    if binding = lineBinding (Uuid.str 1) "f" (.chunk 0) then
      match value with
      | .str text => if text = "aGk=" then .ok "vault:v1:AA==" else .error .privateDataUnavailable
      | _ => .error .privateDataUnavailable
    else if binding = lineBinding (Uuid.str 1) "f" .manifest ∧ isSampleManifest value = true then
      .ok "vault:v1:AQ=="
    else .error .privateDataUnavailable
  decrypt := fun ciphertext binding =>
    match stagingOpens ciphertext binding with
    | some value => .ok value
    | none => .error .privateDataUnavailable
  lookup := fun _ _ => .error .privateDataUnavailable

theorem stagingCipher_encrypt {value : Json} {binding : StorageBinding} {ciphertext : String}
    (h : stagingCipher.encrypt value binding = .ok ciphertext) :
    (ciphertext = "vault:v1:AA==" ∧ binding = lineBinding (Uuid.str 1) "f" (.chunk 0) ∧
        value = chunkValue [104, 105]) ∨
      (ciphertext = "vault:v1:AQ==" ∧ binding = lineBinding (Uuid.str 1) "f" .manifest ∧
        value = uploadManifest stagingEncodings 1 [104, 105]) := by
  unfold stagingCipher at h
  dsimp only at h
  split at h
  · next hbinding =>
      split at h
      · next text =>
          split at h
          · next htext =>
              cases h
              refine .inl ⟨rfl, hbinding, ?_⟩
              rw [htext]
              exact congrArg Json.str (by decide)
          · cases h
      · cases h
  · split at h
    · next hmanifest =>
        cases h
        exact .inr ⟨rfl, hmanifest.1, eq_of_isSampleManifest hmanifest.2⟩
    · cases h

theorem stagingOpens_chunk : stagingOpens "vault:v1:AA==" (lineBinding (Uuid.str 1) "f" (.chunk 0)) =
    some (chunkValue [104, 105]) := by
  rw [stagingOpens, if_pos ⟨rfl, rfl⟩]

theorem stagingOpens_manifest :
    stagingOpens "vault:v1:AQ==" (lineBinding (Uuid.str 1) "f" .manifest) =
      some (uploadManifest stagingEncodings 1 [104, 105]) := by
  rw [stagingOpens, if_neg (fun h => absurd h.1 (by decide)), if_pos ⟨rfl, rfl⟩]

theorem stagingCipher_uses : stagingCipher.Uses stagingOpens where
  encrypt_prefix := by
    intro value binding ciphertext h
    rcases stagingCipher_encrypt h with ⟨rfl, -, -⟩ | ⟨rfl, -, -⟩
    · decide
    · decide
  encrypt_opens := by
    intro value binding ciphertext h
    rcases stagingCipher_encrypt h with ⟨rfl, rfl, rfl⟩ | ⟨rfl, rfl, rfl⟩
    · exact stagingOpens_chunk
    · exact stagingOpens_manifest
  decrypt_opens := by
    intro value binding ciphertext h
    unfold stagingCipher at h
    dsimp only at h
    split at h
    · next hopens =>
        cases h
        exact hopens
    · cases h
  decrypt_error := by
    intro value binding ciphertext e hopens h
    unfold stagingCipher at h
    dsimp only at h
    rw [hopens] at h
    cases h

theorem stagingCipher_compact : Compact stagingEncodings stagingCipher := by
  intro value binding ciphertext raw h _ _
  have hlength : "vault:v1:AA==".length = 13 ∧ "vault:v1:AQ==".length = 13 := by decide
  rcases stagingCipher_encrypt h with ⟨rfl, -, -⟩ | ⟨rfl, -, -⟩
  · exact ⟨by decide, by omega⟩
  · exact ⟨by decide, by omega⟩

/-- The upload of the sample. -/
def sampleSave : SaveEnv where
  admission := fun _ => .ok ()
  lib := stagingEncodings
  cipher := stagingCipher
  directory := "d"
  name := "f"

/-- What reads the sample upload back, with nothing that fails. -/
def sampleDecrypt : DecryptEnv where
  admission := fun _ => .ok ()
  lib := stagingEncodings
  cipher := stagingCipher
  volatile := true
  folder := "rag-private-parse-x"

/-- Two bytes are staged and used; and whatever is found at their path later, nothing else is ever
handed out. -/
theorem staged_upload_two_bytes :
    (∃ file, (save sampleSave 1 [[104, 105]]).file = some file ∧
      decryptedPath sampleDecrypt 1 "f" ⟨false, some (stagedLines file)⟩ Except.ok [] =
        ⟨some [104, 105], .ok [104, 105], []⟩) ∧
    ∀ (user : Uuid) (misplaced : Bool) (found : Option Bytes),
      (∀ content, (decryptedPath sampleDecrypt user "f" ⟨misplaced, found.map stagedLines⟩
        Except.ok []).yielded = some content → content = delivered [[104, 105]]) ∧
      (decryptedPath sampleDecrypt user "f" ⟨misplaced, found.map stagedLines⟩ Except.ok
        []).memory = [] := by
  have hsave : (save sampleSave 1 [[104, 105]]).result = .ok ⟨"d", "f"⟩ := by decide +kernel
  have honly : OnlyUpload stagingOpens "f" (save sampleSave 1 [[104, 105]]).calls := by
    obtain ⟨-, file, -, ⟨hw⟩⟩ := save_ok hsave
    intro ciphertext owner field value hopens
    rw [hw.calls_eq]
    unfold stagingOpens at hopens
    split at hopens
    · next h =>
        rw [← Option.some.inj hopens, h.2]
        exact List.mem_append_left _ List.mem_cons_self
    · split at hopens
      · next h =>
          rw [← Option.some.inj hopens, h.2]
          exact List.mem_append_right _ List.mem_cons_self
      · cases hopens
  have hread : ∀ chunk ∈ [([104, 105] : Bytes)], chunk.length ≤ 65536 := by
    intro chunk hchunk
    rw [List.mem_singleton.mp hchunk]
    decide
  have havailable : sampleDecrypt.cipher.Available stagingOpens := by
    intro value binding ciphertext h
    change stagingCipher.decrypt ciphertext binding = .ok value
    unfold stagingCipher
    dsimp only
    rw [h]
  obtain ⟨hexact, honlySaved⟩ := @staged_upload sampleSave stagingOpens stagingEncodings_prints
    stagingCipher_uses stagingCipher_compact 1 _ hread _ hsave honly Bytes sampleDecrypt rfl
    stagingCipher_uses Except.ok [] (by simp)
  exact ⟨hexact havailable rfl (fun _ => rfl), honlySaved⟩

end PortRag.Ingest
