import PortRag.Foundation.Lines
import PortRag.Ingest.Pipeline
import PortRag.Security.Cells
import PortRag.Security.RoundTrip

set_option autoImplicit false

/-!
# Staged originals

`LocalUploadStorage.save` and `decrypted_path` of `rag/ingest/uploads.py`: a staged original is a
header, one line for each chunk read from the upload, and a line for the manifest over all of
them.  The writer and the reader each keep their own count, size and digest.
-/

namespace PortRag.Ingest

open PortRag.Foundation PortRag.Db PortRag.Security

/-- `b"\n"`. -/
def newline : UInt8 := 10

/-- `json.dumps({member: text}, separators=(",", ":")).encode()`. -/
def dumpLine (member text : String) : Bytes :=
  utf8 (String.ofList ('{' :: (quote member.toList ++ ':' :: (quote text.toList ++ ['}']))))

/-- The binding of a line of the staged original `name`. -/
def lineBinding (owner name : String) (field : UploadField) : StorageBinding :=
  ⟨owner, name, field.text⟩

/-! ## Saving -/

/-- What `save` has read and written so far, and the calls of `encrypt` that it made. -/
structure Writing where
  count : Nat
  content : Bytes
  output : Bytes
  calls : List (Json × StorageBinding)

/-- A chunk as `save` encrypts it. -/
def chunkValue (chunk : Bytes) : Json := .str (String.ofList (b64encode chunk))

/-- The manifest of an upload. -/
def uploadManifest (lib : Encodings) (count : Nat) (content : Bytes) : Json :=
  .obj [("count", .num count), ("bytes", .num content.length), ("sha256", .str (lib.sha256 content))]

/-- One turn of the loop of `save`, for a chunk that is not empty. -/
def writeChunk (cipher : PrivateDataCipher) (owner name : String) (w : Writing) (chunk : Bytes) :
    Except Exc Writing :=
  if maxUpload < w.content.length + chunk.length then
    .error (.valueError "RAG upload exceeds the size limit")
  else do
    let call := (chunkValue chunk, lineBinding owner name (.chunk w.count))
    let encrypted ← cipher.encrypt call.1 call.2
    pure {
      count := w.count + 1
      content := w.content ++ chunk
      output := w.output ++ dumpLine "ciphertext" encrypted ++ [newline]
      calls := w.calls ++ [call] }

/-- The body of `save` in its `try`: what the file holds in the end. -/
def writeStaged (lib : Encodings) (cipher : PrivateDataCipher) (owner name : String)
    (reads : List Bytes) : Except Exc Writing := do
  let w ← (reads.takeWhile (fun chunk => chunk ≠ [])).foldlM (writeChunk cipher owner name)
    ⟨0, [], uploadHeader, []⟩
  let call := (uploadManifest lib w.count w.content, lineBinding owner name .manifest)
  let manifest ← cipher.encrypt call.1 call.2
  pure { w with
    output := w.output ++ dumpLine "manifest" manifest ++ [newline]
    calls := w.calls ++ [call] }

/-- What `save` meets: its three admission checks, its cipher, the directory it writes to and the
name it makes up. -/
structure SaveEnv where
  admission : Nat → Except Exc Unit
  lib : Encodings
  cipher : PrivateDataCipher
  directory : String
  name : String

/-- What a call of `save` leaves behind, with the calls of `encrypt` that its lines came from. -/
structure SaveEnd where
  result : Except Exc StagedPath
  file : Option Bytes
  calls : List (Json × StorageBinding)

/-- `LocalUploadStorage.save`, with what the reads of the upload return one after the other. -/
def save (env : SaveEnv) (userId : Uuid) (reads : List Bytes) : SaveEnd :=
  let admitted := do
    env.admission 0
    env.admission 1
  match admitted with
  | .error e => ⟨.error e, none, []⟩
  | .ok _ =>
      match writeStaged env.lib env.cipher userId.str env.name reads with
      | .error e => ⟨.error e, none, []⟩
      | .ok w =>
          match env.admission 2 with
          | .error e => ⟨.error e, none, w.calls⟩
          | .ok _ => ⟨.ok ⟨env.directory, env.name⟩, some w.output, w.calls⟩

/-- What an upload delivers: its reads up to the first empty one. -/
def delivered (reads : List Bytes) : Bytes := (reads.takeWhile (fun chunk => chunk ≠ [])).flatten

/-! ## Reading -/

/-- The lines of a staged original as `decrypted_path` reads them. -/
def stagedLines (content : Bytes) : List Bytes :=
  let header := readline newline 128 content
  header.1 :: readlines newline 524289 content.length header.2

/-- A file of the memory filesystem. -/
structure WorkingFile where
  folder : String
  name : String
  content : Bytes

/-- What one use of `decrypted_path` meets: its two admission checks, its cipher, whether the
memory filesystem is there, and the fresh name of its folder. -/
structure DecryptEnv where
  admission : Nat → Except Exc Unit
  lib : Encodings
  cipher : PrivateDataCipher
  volatile : Bool
  folder : String

/-- The loop over the lines, with the content of the working file when it ends. -/
def copyLines (lib : Encodings) (cipher : PrivateDataCipher) (owner name : String) :
    List Bytes → Reading → Except Exc Reading × Bytes
  | [], r => (.ok r, r.content)
  | line :: rest, r =>
      match readLine lib cipher owner name r line with
      | .error e => (.error e, r.content)
      | .ok r' => copyLines lib cipher owner name rest r'

/-- What the `try` of `decrypted_path` comes to: the path's content where it is yielded, the
result, and the content of the working file unless it was never opened. -/
structure Attempt (α : Type) where
  yielded : Option Bytes
  result : Except Exc α
  written : Option Bytes

/-- The `try` of `decrypted_path`, with the caller's `async with` body in its place. -/
def attempt {α : Type} (env : DecryptEnv) (owner name : String) (lines : Option (List Bytes))
    (body : Bytes → Except Exc α) : Attempt α :=
  match lines with
  | none => ⟨none, .error (.other "No such file or directory"), none⟩
  | some [] => ⟨none, .error .privateDataUnavailable, some []⟩
  | some (header :: rest) =>
      if header ≠ uploadHeader then ⟨none, .error .privateDataUnavailable, some []⟩
      else
        match copyLines env.lib env.cipher owner name rest ⟨0, [], .null⟩ with
        | (.error e, written) => ⟨none, .error e, some written⟩
        | (.ok r, written) =>
            if matchesUpload env.lib r then
              match env.admission 1 with
              | .error e => ⟨none, .error e, some written⟩
              | .ok _ => ⟨some written, body written, some written⟩
            else ⟨none, .error .privateDataUnavailable, some written⟩

/-- `target.unlink(missing_ok=True)`. -/
def unlink (folder name : String) (memory : List WorkingFile) : List WorkingFile :=
  memory.filter (fun f => ¬ (f.folder = folder ∧ f.name = name))

/-- The end of `TemporaryDirectory`. -/
def removeFolder (folder : String) (memory : List WorkingFile) : List WorkingFile :=
  memory.filter (fun f => f.folder ≠ folder)

/-- What a use of `decrypted_path` ends with. -/
structure DecryptEnd (α : Type) where
  yielded : Option Bytes
  result : Except Exc α
  memory : List WorkingFile

/-- `LocalUploadStorage.decrypted_path`, used with a body. -/
def decryptedPath {α : Type} (env : DecryptEnv) (userId : Uuid) (name : String) (file : StagedFile)
    (body : Bytes → Except Exc α) (memory : List WorkingFile) : DecryptEnd α :=
  match env.admission 0 with
  | .error e => ⟨none, .error e, memory⟩
  | .ok _ =>
      if file.misplaced then ⟨none, .error .privateDataUnavailable, memory⟩
      else if !env.volatile then
        ⟨none, .error (.other "RAG private parsing requires a memory filesystem"), memory⟩
      else
        let tried := attempt env userId.str name file.lines body
        let left := match tried.written with
          | none => memory
          | some content => ⟨env.folder, name, content⟩ :: memory
        ⟨tried.yielded, tried.result, removeFolder env.folder (unlink env.folder name left)⟩

/-! ## The text of a line -/

/-- The characters of a ciphertext. -/
def lineChar (c : Char) : Bool := isBase64 c || c = '=' || c = ':'

theorem lineChar_range {c : Char} (h : lineChar c = true) :
    32 < c.toNat ∧ c.toNat < 128 ∧ c ≠ '"' ∧ c ≠ '\\' := by
  have hne : c ≠ '"' ∧ c ≠ '\\' := by
    constructor
    · rintro rfl
      exact absurd h (by decide)
    · rintro rfl
      exact absurd h (by decide)
  refine ⟨?_, ?_, hne⟩
  all_goals
    simp only [lineChar, isBase64, isDigit, Bool.or_eq_true, Bool.and_eq_true, decide_eq_true_eq,
      Char.le_def, UInt32.le_iff_toNat_le] at h
    have hvalue : c.toNat = c.val.toNat := rfl
    rcases h with (((((h | h) | h) | rfl) | rfl) | rfl) | rfl
    · have hlow : 65 ≤ c.val.toNat := h.1
      have hhigh : c.val.toNat ≤ 90 := h.2
      omega
    · have hlow : 97 ≤ c.val.toNat := h.1
      have hhigh : c.val.toNat ≤ 122 := h.2
      omega
    · have hlow : 48 ≤ c.val.toNat := h.1
      have hhigh : c.val.toNat ≤ 57 := h.2
      omega
    all_goals decide

/-- Text of such characters is quoted as it is. -/
theorem quote_line {text : List Char} (h : ∀ c ∈ text, lineChar c = true) :
    quote text = '"' :: (text ++ ['"']) := by
  have hescape : text.flatMap escapeChar = text := by
    induction text with
    | nil => rfl
    | cons c text ih =>
        obtain ⟨hlow, -, hquote, hslash⟩ := lineChar_range (h c List.mem_cons_self)
        have hc : escapeChar c = [c] := by
          have hn : c ≠ '\n' := by rintro rfl; exact absurd hlow (by decide)
          have hr : c ≠ '\r' := by rintro rfl; exact absurd hlow (by decide)
          have ht : c ≠ '\t' := by rintro rfl; exact absurd hlow (by decide)
          rw [escapeChar, if_neg hquote, if_neg hslash, if_neg hn, if_neg hr, if_neg ht,
            if_neg (by omega), if_neg (by omega), if_neg (by omega)]
        rw [List.flatMap_cons, hc, ih (fun d hd => h d (List.mem_cons_of_mem _ hd)),
          List.singleton_append]
  rw [quote, hescape]

/-- ASCII text has one byte for each character. -/
theorem utf8_ofList {text : List Char} (h : ∀ c ∈ text, c.toNat < 128) :
    utf8 (String.ofList text) = text.map (fun c => UInt8.ofNat c.toNat) := by
  rw [utf8, String.toByteArray_ofList, List.utf8Encode, List.toList_data_toByteArray]
  induction text with
  | nil => rfl
  | cons c text ih =>
      have hc : String.utf8EncodeChar c = [UInt8.ofNat c.toNat] := by
        have hvalue : c.toNat = c.val.toNat := rfl
        have hlow := h c List.mem_cons_self
        rw [String.utf8EncodeChar]
        rw [if_pos (by omega)]
        rfl
      rw [List.flatMap_cons, hc, ih (fun d hd => h d (List.mem_cons_of_mem _ hd)), List.map_cons,
        List.singleton_append]

theorem dumpLine_eq {member text : String} (hmember : ∀ c ∈ member.toList, lineChar c = true)
    (htext : ∀ c ∈ text.toList, lineChar c = true) :
    dumpLine member text = ('{' :: (('"' :: (member.toList ++ ['"'])) ++ ':' ::
      (('"' :: (text.toList ++ ['"'])) ++ ['}']))).map (fun c => UInt8.ofNat c.toNat) := by
  rw [dumpLine, quote_line hmember, quote_line htext, utf8_ofList]
  intro c hc
  simp only [List.mem_cons, List.mem_append, List.not_mem_nil, or_false] at hc
  rcases hc with rfl | (rfl | hc | rfl) | rfl | (rfl | hc | rfl) | rfl
  · decide
  · decide
  · exact (lineChar_range (hmember c hc)).2.1
  · decide
  · decide
  · decide
  · exact (lineChar_range (htext c hc)).2.1
  · decide
  · decide

theorem dumpLine_length {member text : String} (hmember : ∀ c ∈ member.toList, lineChar c = true)
    (htext : ∀ c ∈ text.toList, lineChar c = true) :
    (dumpLine member text).length = member.length + text.length + 7 := by
  rw [dumpLine_eq hmember htext]
  simp only [List.length_map, List.length_cons, List.length_append, List.length_nil,
    String.length_toList]
  omega

/-- A line is one line. -/
theorem newline_not_mem_dumpLine {member text : String}
    (hmember : ∀ c ∈ member.toList, lineChar c = true)
    (htext : ∀ c ∈ text.toList, lineChar c = true) : newline ∉ dumpLine member text := by
  rw [dumpLine_eq hmember htext]
  intro hmem
  obtain ⟨c, hc, hbyte⟩ := List.mem_map.mp hmem
  have hrange : 32 < c.toNat ∧ c.toNat < 128 := by
    simp only [List.mem_cons, List.mem_append, List.not_mem_nil, or_false] at hc
    rcases hc with rfl | (rfl | hc | rfl) | rfl | (rfl | hc | rfl) | rfl
    · decide
    · decide
    · exact ⟨(lineChar_range (hmember c hc)).1, (lineChar_range (hmember c hc)).2.1⟩
    · decide
    · decide
    · decide
    · exact ⟨(lineChar_range (htext c hc)).1, (lineChar_range (htext c hc)).2.1⟩
    · decide
    · decide
  have hvalue := congrArg UInt8.toNat hbyte
  rw [UInt8.toNat_ofNat_of_lt' (lt_trans hrange.2 (by decide))] at hvalue
  have hten : newline.toNat = 10 := rfl
  omega

/-- The characters of what matches `_CIPHERTEXT` may stand in a line as they are. -/
theorem lineChar_of_isCiphertext {value : String} (h : isCiphertext value = true) :
    ∀ c ∈ value.toList, lineChar c = true := by
  have htake : ∀ (p : Char → Bool) (l : List Char), ∀ c ∈ l, c ∈ l.dropWhile p ∨ p c = true := by
    intro p l c hc
    rw [← List.takeWhile_append_dropWhile (p := p) (l := l)] at hc
    rcases List.mem_append.mp hc with hc | hc
    · exact .inr (List.mem_takeWhile_imp hc)
    · exact .inl hc
  have hbase : ∀ {c : Char}, isBase64 c = true → lineChar c = true := by
    intro c hc
    rw [lineChar, hc, Bool.true_or, Bool.true_or]
  have hdigit : ∀ {c : Char}, isDigit c = true → lineChar c = true := by
    intro c hc
    refine hbase ?_
    rw [isBase64, hc, Bool.or_true, Bool.true_or, Bool.true_or]
  unfold isCiphertext at h
  split at h
  · next first rest hlist =>
      split at h
      · next payload hrest =>
          simp only [Bool.and_eq_true, Bool.or_eq_true, decide_eq_true_eq] at h
          obtain ⟨⟨hfirst, -⟩, hpadding⟩ := h
          have hpayload : ∀ c ∈ payload, lineChar c = true := by
            intro c hc
            rcases htake isBase64 payload c hc with hc | hc
            · rcases hpadding with (hnone | hone) | htwo
              · rw [hnone] at hc
                cases hc
              · rw [hone, List.mem_singleton] at hc
                rw [hc]
                decide
              · rw [htwo] at hc
                simp only [List.mem_cons, List.not_mem_nil, or_false, or_self] at hc
                rw [hc]
                decide
            · exact hbase hc
          rw [hlist]
          intro c hc
          simp only [List.mem_cons] at hc
          rcases hc with rfl | rfl | rfl | rfl | rfl | rfl | rfl | rfl | hc
          · decide
          · decide
          · decide
          · decide
          · decide
          · decide
          · decide
          · refine hdigit ?_
            simp only [isDigit, Bool.and_eq_true, decide_eq_true_eq]
            exact ⟨Char.le_trans (by decide) hfirst.1, hfirst.2⟩
          · rcases htake isDigit rest c hc with hc | hc
            · rw [hrest] at hc
              rcases List.mem_cons.mp hc with rfl | hc
              · decide
              · exact hpayload c hc
            · exact hdigit hc
      · cases h
  · cases h

/-! ## Chunks in Base64 -/

theorem isBase64_digit {n : Nat} (h : n < 64) : isBase64 (b64Digit n) = true := by
  have hall : ∀ m : Fin 64, isBase64 (b64Digit m) = true := by decide
  exact hall ⟨n, h⟩

/-- The characters of an encoding: digits and the padding. -/
theorem mem_b64encode {bytes : Bytes} : ∀ c ∈ b64encode bytes, isBase64 c = true ∨ c = '=' := by
  induction bytes using b64encode.induct with
  | case1 a b d rest ih =>
      have ha := a.toNat_lt
      have hb := b.toNat_lt
      have hd := d.toNat_lt
      intro c hc
      rw [b64encode] at hc
      simp only [List.mem_cons] at hc
      rcases hc with rfl | rfl | rfl | rfl | hc
      · exact .inl (isBase64_digit (by omega))
      · exact .inl (isBase64_digit (by omega))
      · exact .inl (isBase64_digit (by omega))
      · exact .inl (isBase64_digit (by omega))
      · exact ih c hc
  | case2 a b =>
      have ha := a.toNat_lt
      have hb := b.toNat_lt
      intro c hc
      rw [b64encode] at hc
      simp only [List.mem_cons, List.not_mem_nil, or_false] at hc
      rcases hc with rfl | rfl | rfl | rfl
      · exact .inl (isBase64_digit (by omega))
      · exact .inl (isBase64_digit (by omega))
      · exact .inl (isBase64_digit (by omega))
      · exact .inr rfl
  | case3 a =>
      have ha := a.toNat_lt
      intro c hc
      rw [b64encode] at hc
      simp only [List.mem_cons, List.not_mem_nil, or_false] at hc
      rcases hc with rfl | rfl | rfl | rfl
      · exact .inl (isBase64_digit (by omega))
      · exact .inl (isBase64_digit (by omega))
      · exact .inr rfl
      · exact .inr rfl
  | case4 =>
      intro c hc
      cases hc

/-- The decoder accepts what the encoder writes. -/
theorem b64valid_encode (bytes : Bytes) : b64valid (b64encode bytes) = true := by
  induction bytes using b64encode.induct with
  | case1 a b c rest ih =>
      have ha := a.toNat_lt
      have hb := b.toNat_lt
      have hc := c.toNat_lt
      have hw := isBase64_digit (n := a.toNat / 4) (by omega)
      have hx := isBase64_digit (n := a.toNat % 4 * 16 + b.toNat / 16) (by omega)
      have hy := isBase64_digit (n := b.toNat % 16 * 4 + c.toNat / 64) (by omega)
      have hz := isBase64_digit (n := c.toNat % 64) (by omega)
      have hquad : (isBase64 (b64Digit (a.toNat / 4)) &&
          isBase64 (b64Digit (a.toNat % 4 * 16 + b.toNat / 16)) &&
          isBase64 (b64Digit (b.toNat % 16 * 4 + c.toNat / 64)) &&
          isBase64 (b64Digit (c.toNat % 64))) = true := by
        rw [hw, hx, hy, hz]
        rfl
      rw [b64encode, b64valid, if_pos hquad, ih, Bool.or_true]
  | case2 a b =>
      have ha := a.toNat_lt
      have hb := b.toNat_lt
      have hw := isBase64_digit (n := a.toNat / 4) (by omega)
      have hx := isBase64_digit (n := a.toNat % 4 * 16 + b.toNat / 16) (by omega)
      have hy := isBase64_digit (n := b.toNat % 16 * 4) (by omega)
      simp [b64encode, b64valid, hw, hx, hy]
  | case3 a =>
      have ha := a.toNat_lt
      have hw := isBase64_digit (n := a.toNat / 4) (by omega)
      have hx := isBase64_digit (n := a.toNat % 4 * 16) (by omega)
      simp [b64encode, b64valid, hw, hx]
  | case4 => rfl

/-! ## What staging relies on -/

/-- The JSON text of an upload's manifest. -/
def manifestText (count bytes : Nat) (digest : String) : List Char :=
  '{' :: (quote "count".toList ++ ':' :: ((toString count).toList ++ ',' ::
    (quote "bytes".toList ++ ':' :: ((toString bytes).toList ++ ',' ::
      (quote "sha256".toList ++ ':' :: (quote digest.toList ++ ['}']))))))

/-- The JSON library prints the values that staging encrypts as documented and reads back the
lines that staging writes; a hexadecimal SHA-256 has 64 digits. -/
structure Prints (lib : Encodings) : Prop where
  loads_line : ∀ member text, member = "ciphertext" ∨ member = "manifest" →
    (∀ c ∈ text.toList, lineChar c = true) →
    lib.loads (dumpLine member text ++ [newline]) = .ok (.obj [(member, .str text)])
  dumps_text : ∀ text : List Char, (∀ c ∈ text, lineChar c = true) →
    lib.dumps (.str (String.ofList text)) = .ok (utf8 (String.ofList (quote text)))
  dumps_manifest : ∀ count content, lib.dumps (uploadManifest lib count content) =
    .ok (utf8 (String.ofList (manifestText count content.length (lib.sha256 content))))
  digest : ∀ content, (lib.sha256 content).length = 64 ∧
    ∀ c ∈ (lib.sha256 content).toList, lineChar c = true

/-- A value whose JSON text has `n` bytes, and is not cut into chunks, becomes one ciphertext of
Transit of at most `2 n + 1024` characters. -/
def Compact (lib : Encodings) (cipher : PrivateDataCipher) : Prop :=
  ∀ {value binding ciphertext raw}, cipher.encrypt value binding = .ok ciphertext →
    lib.dumps value = .ok raw → raw.length ≤ maxJson →
    isCiphertext ciphertext = true ∧ ciphertext.length ≤ 2 * raw.length + 1024

/-- The cipher over OpenBao is compact where Transit is. -/
theorem compact_openBao {lib : Encodings} {service : Transit}
    (hservice : ∀ {requests raw data ciphertext},
      service.encrypt requests ⟨raw, data⟩ = .ok ciphertext →
      ciphertext.length ≤ 2 * raw.length + 1024)
    (lookup : String → StorageBinding → Except Exc String) (depth : Nat) (h : History) :
    Compact lib (openBaoPrivateDataCipher lib service lookup depth h) := by
  intro value binding ciphertext raw hencrypt hraw hsmall
  cases depth with
  | zero => cases hencrypt
  | succ depth =>
      have hrun : (encrypt lib service (depth + 1) value binding h).1 = .ok ciphertext := hencrypt
      unfold encrypt at hrun
      have hvalue : ¬ maxValue < raw.length := by
        rw [maxValue]
        rw [maxJson] at hsmall
        omega
      simp only [hraw, if_neg hvalue, if_pos hsmall] at hrun
      cases hpair : transitEncrypt service raw binding
          { h with calls := h.calls ++ [(value, binding)] } with
      | mk result h' =>
          rw [hpair] at hrun
          obtain ⟨data, -, hciphertext, hanswer, -⟩ := transitEncrypt_ok (hpair.trans (by rw [← hrun]))
          exact ⟨hciphertext, hservice hanswer⟩

/-! ## What is written -/

section Written

variable {lib : Encodings} {cipher : PrivateDataCipher} {owner name : String}

/-- The calls for chunks from number `start` on. -/
def chunkCalls (owner name : String) (chunks : List Bytes) (start : Nat) :
    List (Json × StorageBinding) :=
  (chunks.zipIdx start).map (fun c => (chunkValue c.1, lineBinding owner name (.chunk c.2)))

/-- The lines for ciphertexts. -/
def chunkLines (ciphertexts : List String) : List Bytes := ciphertexts.map (dumpLine "ciphertext")

/-- A turn of the loop. -/
theorem writeChunk_ok {w w' : Writing} {chunk : Bytes}
    (h : writeChunk cipher owner name w chunk = .ok w') :
    w.content.length + chunk.length ≤ maxUpload ∧ ∃ ciphertext,
      cipher.encrypt (chunkValue chunk) (lineBinding owner name (.chunk w.count)) = .ok ciphertext ∧
      w' = ⟨w.count + 1, w.content ++ chunk, w.output ++ dumpLine "ciphertext" ciphertext ++ [newline],
        w.calls ++ [(chunkValue chunk, lineBinding owner name (.chunk w.count))]⟩ := by
  unfold writeChunk at h
  split at h
  · cases h
  · next hsize =>
      obtain ⟨ciphertext, hencrypt, hw⟩ := bind_eq_ok.mp h
      exact ⟨Nat.le_of_not_lt hsize, ciphertext, hencrypt, (pure_eq_ok.mp hw).symm⟩

/-- The loop over the chunks of an upload: it counts them, joins them within the limit, and has sent
one request for each, under its own number. -/
theorem writeChunks_ok {chunks : List Bytes} {w w' : Writing}
    (hw : w.content.length ≤ maxUpload)
    (h : chunks.foldlM (writeChunk cipher owner name) w = .ok w') :
    w'.count = w.count + chunks.length ∧ w'.content = w.content ++ chunks.flatten ∧
      w'.content.length ≤ maxUpload ∧ w'.calls = w.calls ++ chunkCalls owner name chunks w.count ∧
      ∃ ciphertexts, List.Forall₂ (fun (c : Bytes × Nat) ciphertext =>
          cipher.encrypt (chunkValue c.1) (lineBinding owner name (.chunk c.2)) = .ok ciphertext)
          (chunks.zipIdx w.count) ciphertexts ∧
        w'.output = w.output ++ (chunkLines ciphertexts).flatMap (fun line => line ++ [newline]) := by
  induction chunks generalizing w with
  | nil =>
      cases h
      exact ⟨rfl, (List.append_nil _).symm, hw, (List.append_nil _).symm, [], .nil,
        (List.append_nil _).symm⟩
  | cons chunk rest ih =>
      rw [List.foldlM_cons] at h
      obtain ⟨middle, hfirst, hrest⟩ := bind_eq_ok.mp h
      obtain ⟨hsize, ciphertext, hencrypt, rfl⟩ := writeChunk_ok hfirst
      obtain ⟨hcount, hcontent, hbound, hcalls, ciphertexts, hall, houtput⟩ :=
        ih (by rw [List.length_append]; exact hsize) hrest
      dsimp only at hcount hcontent hcalls hall houtput
      refine ⟨?_, ?_, hbound, ?_, ciphertext :: ciphertexts, ?_, ?_⟩
      · rw [hcount, List.length_cons]
        omega
      · rw [hcontent, List.flatten_cons, List.append_assoc]
      · rw [hcalls, chunkCalls, chunkCalls, List.zipIdx_cons, List.map_cons, List.append_assoc]
        rfl
      · rw [List.zipIdx_cons]
        exact .cons hencrypt hall
      · rw [houtput, chunkLines, chunkLines, List.map_cons, List.flatMap_cons]
        simp only [List.append_assoc]

/-- What a save that returned has written and encrypted. -/
structure Written (lib : Encodings) (cipher : PrivateDataCipher) (owner name : String)
    (chunks : List Bytes) (file : Bytes) (calls : List (Json × StorageBinding)) where
  ciphertexts : List String
  manifest : String
  encrypted : List.Forall₂ (fun (c : Bytes × Nat) ciphertext =>
    cipher.encrypt (chunkValue c.1) (lineBinding owner name (.chunk c.2)) = .ok ciphertext)
    chunks.zipIdx ciphertexts
  sealed : cipher.encrypt (uploadManifest lib chunks.length chunks.flatten)
    (lineBinding owner name .manifest) = .ok manifest
  size : chunks.flatten.length ≤ maxUpload
  file_eq : file = uploadHeader ++ (chunkLines ciphertexts ++ [dumpLine "manifest" manifest]).flatMap
    (fun line => line ++ [newline])
  calls_eq : calls = chunkCalls owner name chunks 0 ++
    [(uploadManifest lib chunks.length chunks.flatten, lineBinding owner name .manifest)]

theorem writeStaged_ok {reads : List Bytes} {w : Writing}
    (h : writeStaged lib cipher owner name reads = .ok w) :
    Nonempty (Written lib cipher owner name (reads.takeWhile (fun chunk => chunk ≠ [])) w.output
      w.calls) := by
  unfold writeStaged at h
  obtain ⟨last, hloop, h⟩ := bind_eq_ok.mp h
  obtain ⟨manifest, hsealed, hw⟩ := bind_eq_ok.mp h
  obtain ⟨hcount, hcontent, hbound, hcalls, ciphertexts, hall, houtput⟩ :=
    writeChunks_ok (Nat.zero_le _) hloop
  simp only [Nat.zero_add, List.nil_append] at hcount hcontent hcalls
  rw [hcount, hcontent] at hsealed
  obtain rfl := pure_eq_ok.mp hw
  refine ⟨ciphertexts, manifest, hall, hsealed, ?_, ?_, ?_⟩
  · rw [← hcontent]
    exact hbound
  · rw [houtput, List.flatMap_append]
    simp only [List.append_assoc, List.flatMap_cons, List.flatMap_nil, List.append_nil]
  · rw [hcalls, hcount, hcontent]

/-- A save that returned a path. -/
theorem save_ok {env : SaveEnv} {userId : Uuid} {reads : List Bytes} {path : StagedPath}
    (h : (save env userId reads).result = .ok path) : path.name = env.name ∧ ∃ file,
      (save env userId reads).file = some file ∧
      Nonempty (Written env.lib env.cipher userId.str env.name
        (reads.takeWhile (fun chunk => chunk ≠ [])) file (save env userId reads).calls) := by
  unfold save at h ⊢
  dsimp only at h ⊢
  split at h
  · cases h
  · split at h
    · cases h
    · next w hw =>
        split at h
        · cases h
        · cases h
          exact ⟨rfl, w.output, rfl, writeStaged_ok hw⟩

end Written

end PortRag.Ingest
