import Mathlib.Data.List.Induction
import PortRag.Ingest.Staging

set_option autoImplicit false

/-!
# What a staged original holds

Which lines of a staged original hold which chunks, and how a line fails.  The relations are said
of the lines, of what `json.loads` makes of them and of what their ciphertexts decrypt to.
`decrypted_path` is then shown to read an original exactly when it is intact, and to raise exactly
what makes it unreadable.
-/

namespace PortRag.Ingest

open PortRag.Foundation PortRag.Db PortRag.Security

/-! ## Staged lines -/

section Lines

variable (lib : Encodings) (cipher : PrivateDataCipher) (owner name : String)

/-- A staged line that is short enough and a JSON object. -/
def HoldsObject (line : Bytes) (members : List (String × Json)) : Prop :=
  line.length ≤ 524288 ∧ lib.loads line = .ok (.obj members)

/-- The ciphertext of a line without a manifest. -/
def HoldsCiphertext (line : Bytes) (ciphertext : String) : Prop :=
  ∃ members, HoldsObject lib line members ∧ (Json.obj members).get? "manifest" = none ∧
    (Json.obj members).get? "ciphertext" = some (.str ciphertext)

/-- The ciphertext of a line with a manifest. -/
def HoldsManifest (line : Bytes) (ciphertext : String) : Prop :=
  ∃ members, HoldsObject lib line members ∧
    (Json.obj members).get? "manifest" = some (.str ciphertext)

/-- What a line adds to the chunks and the manifest read before it.  A chunk's ciphertext decrypts,
as the chunk of its number, to the Base64 text of at most 65536 bytes, with which the upload stays
within its limit.  No line may follow a manifest; one that decrypts to null counts as none. -/
inductive LineAdds : List Bytes → Json → Bytes → List Bytes → Json → Prop where
  | chunk {chunks : List Bytes} {line chunk : Bytes} {ciphertext : String} :
      HoldsCiphertext lib line ciphertext →
      cipher.decrypt ciphertext ⟨owner, name, "upload:chunk:" ++ toString chunks.length⟩ =
        .ok (.str (String.ofList (b64encode chunk))) →
      chunk.length ≤ 65536 → chunks.flatten.length + chunk.length ≤ maxUpload →
      LineAdds chunks .null line (chunks ++ [chunk]) .null
  | manifest {chunks : List Bytes} {line : Bytes} {ciphertext : String} {manifest : Json} :
      HoldsManifest lib line ciphertext →
      cipher.decrypt ciphertext ⟨owner, name, "upload:manifest"⟩ = .ok manifest →
      LineAdds chunks .null line chunks manifest

/-- How a line fails after the chunks and the manifest read before it, and what that raises. -/
inductive LineStops : List Bytes → Json → Bytes → Exc → Prop where
  /-- A line after the manifest. -/
  | late {chunks : List Bytes} {manifest : Json} {line : Bytes} :
      manifest ≠ .null → LineStops chunks manifest line .privateDataUnavailable
  | tooLong {chunks : List Bytes} {line : Bytes} :
      524288 < line.length → LineStops chunks .null line .privateDataUnavailable
  | noJson {chunks : List Bytes} {line : Bytes} {e : Exc} :
      line.length ≤ 524288 → lib.loads line = .error e → LineStops chunks .null line e
  | noObject {chunks : List Bytes} {line : Bytes} {value : Json} :
      line.length ≤ 524288 → lib.loads line = .ok value → (∀ members, value ≠ .obj members) →
      LineStops chunks .null line (.other "indices must be integers or slices")
  | oddManifest {chunks : List Bytes} {line : Bytes} {members : List (String × Json)}
      {value : Json} :
      HoldsObject lib line members → (Json.obj members).get? "manifest" = some value →
      (∀ text, value ≠ .str text) →
      LineStops chunks .null line (.other "object has no attribute 'startswith'")
  | closedManifest {chunks : List Bytes} {line : Bytes} {ciphertext : String} {e : Exc} :
      HoldsManifest lib line ciphertext →
      cipher.decrypt ciphertext ⟨owner, name, "upload:manifest"⟩ = .error e →
      LineStops chunks .null line e
  | noCiphertext {chunks : List Bytes} {line : Bytes} {members : List (String × Json)} :
      HoldsObject lib line members → (Json.obj members).get? "manifest" = none →
      (Json.obj members).get? "ciphertext" = none →
      LineStops chunks .null line (.other "ciphertext")
  | oddCiphertext {chunks : List Bytes} {line : Bytes} {members : List (String × Json)}
      {value : Json} :
      HoldsObject lib line members → (Json.obj members).get? "manifest" = none →
      (Json.obj members).get? "ciphertext" = some value → (∀ text, value ≠ .str text) →
      LineStops chunks .null line (.other "object has no attribute 'startswith'")
  | closedChunk {chunks : List Bytes} {line : Bytes} {ciphertext : String} {e : Exc} :
      HoldsCiphertext lib line ciphertext →
      cipher.decrypt ciphertext ⟨owner, name, "upload:chunk:" ++ toString chunks.length⟩ =
        .error e →
      LineStops chunks .null line e
  | noText {chunks : List Bytes} {line : Bytes} {ciphertext : String} {value : Json} :
      HoldsCiphertext lib line ciphertext →
      cipher.decrypt ciphertext ⟨owner, name, "upload:chunk:" ++ toString chunks.length⟩ =
        .ok value →
      (∀ text, value ≠ .str text) →
      LineStops chunks .null line (.other "argument should be a bytes-like object or ASCII string")
  | noBase64 {chunks : List Bytes} {line : Bytes} {ciphertext text : String} :
      HoldsCiphertext lib line ciphertext →
      cipher.decrypt ciphertext ⟨owner, name, "upload:chunk:" ++ toString chunks.length⟩ =
        .ok (.str text) →
      b64valid text.toList = false →
      LineStops chunks .null line (.valueError "Invalid base64-encoded string")
  /-- Base64 that is not how a chunk is written, or a chunk that is too large. -/
  | oddChunk {chunks : List Bytes} {line : Bytes} {ciphertext text : String} :
      HoldsCiphertext lib line ciphertext →
      cipher.decrypt ciphertext ⟨owner, name, "upload:chunk:" ++ toString chunks.length⟩ =
        .ok (.str text) →
      b64valid text.toList = true →
      (∀ chunk, text.toList = b64encode chunk →
        65536 < chunk.length ∨ maxUpload < chunks.flatten.length + chunk.length) →
      LineStops chunks .null line .privateDataUnavailable

/-- The chunks and the manifest that the lines after the header hold. -/
inductive LinesRead : List Bytes → List Bytes → Json → Prop where
  | nil : LinesRead [] [] .null
  | snoc {lines chunks chunks' : List Bytes} {manifest manifest' : Json} {line : Bytes} :
      LinesRead lines chunks manifest →
      LineAdds lib cipher owner name chunks manifest line chunks' manifest' →
      LinesRead (lines ++ [line]) chunks' manifest'

/-- The manifest counts these chunks and their bytes, and has the digest of their content. -/
structure ManifestFits (manifest : Json) (chunks : List Bytes) : Prop where
  count : intValue (manifest.get? "count") = some (chunks.length : Int)
  bytes : intValue (manifest.get? "bytes") = some (chunks.flatten.length : Int)
  digest : manifest.get? "sha256" = some (.str (lib.sha256 chunks.flatten))

end Lines

/-! ## The loop over the lines -/

/-- The state of the loop for what has been read. -/
def readingOf (chunks : List Bytes) (manifest : Json) : Reading :=
  ⟨chunks.length, chunks.flatten, manifest⟩

section Loop

variable {lib : Encodings} {cipher : PrivateDataCipher} {owner name : String}
  {chunks : List Bytes} {manifest : Json} {line : Bytes}

/-- Either a text is the Base64 text of a chunk that still fits, or it is not. -/
theorem chunkText_cases (total : Nat) (text : String) :
    (∃ chunk, text.toList = b64encode chunk ∧ chunk.length ≤ 65536 ∧
        total + chunk.length ≤ maxUpload) ∨
      ∀ chunk, text.toList = b64encode chunk →
        65536 < chunk.length ∨ maxUpload < total + chunk.length := by
  by_cases h : ∃ chunk, text.toList = b64encode chunk ∧ chunk.length ≤ 65536 ∧
      total + chunk.length ≤ maxUpload
  · exact .inl h
  · refine .inr fun chunk htext => ?_
    by_contra hfits
    rw [not_or, Nat.not_lt, Nat.not_lt] at hfits
    exact h ⟨chunk, htext, hfits.1, hfits.2⟩

/-- The test of the loop on a decrypted text: it passes exactly the chunks that still fit. -/
theorem chunkTest_iff {total : Nat} {text : String} :
    (65536 < (b64decode text.toList).length ∨ b64encode (b64decode text.toList) ≠ text.toList ∨
        maxUpload < total + (b64decode text.toList).length) ↔
      ∀ chunk, text.toList = b64encode chunk →
        65536 < chunk.length ∨ maxUpload < total + chunk.length := by
  constructor
  · rintro h chunk htext
    rw [htext, b64decode_encode] at h
    rcases h with h | h | h
    · exact .inl h
    · exact absurd rfl h
    · exact .inr h
  · intro h
    by_cases hsame : b64encode (b64decode text.toList) = text.toList
    · rcases h _ hsame.symm with h | h
      · exact .inl h
      · exact .inr (.inr h)
    · exact .inr (.inl hsame)

theorem asText_cases (value : Json) :
    (∃ text, value = .str text ∧ asText value = .ok text) ∨
      ((∀ text, value ≠ .str text) ∧
        asText value = .error (.other "object has no attribute 'startswith'")) := by
  cases value with
  | str text => exact .inl ⟨text, rfl, rfl⟩
  | null => exact .inr ⟨nofun, rfl⟩
  | bool b => exact .inr ⟨nofun, rfl⟩
  | num q => exact .inr ⟨nofun, rfl⟩
  | arr items => exact .inr ⟨nofun, rfl⟩
  | obj members => exact .inr ⟨nofun, rfl⟩

theorem asText_of_odd {value : Json} (h : ∀ text, value ≠ .str text) :
    asText value = .error (.other "object has no attribute 'startswith'") := by
  rcases asText_cases value with ⟨text, htext, -⟩ | ⟨-, hfails⟩
  · exact absurd htext (h text)
  · exact hfails

/-- A turn of the loop on a line that holds a ciphertext. -/
def readChunk (cipher : PrivateDataCipher) (owner name : String) (r : Reading)
    (ciphertext : String) : Except Exc Reading := do
  let encoded ← cipher.decrypt ciphertext ⟨owner, name, "upload:chunk:" ++ toString r.count⟩
  match encoded with
  | .str text =>
      if !b64valid text.toList then .error (.valueError "Invalid base64-encoded string")
      else
        let chunk := b64decode text.toList
        if 65536 < chunk.length ∨ b64encode chunk ≠ text.toList ∨
            maxUpload < r.content.length + chunk.length then
          .error .privateDataUnavailable
        else pure { r with count := r.count + 1, content := r.content ++ chunk }
  | _ => .error (.other "argument should be a bytes-like object or ASCII string")

theorem readLine_of_ciphertext {ciphertext : String}
    (h : HoldsCiphertext lib line ciphertext) :
    readLine lib cipher owner name (readingOf chunks .null) line =
      readChunk cipher owner name (readingOf chunks .null) ciphertext := by
  obtain ⟨members, ⟨hshort, hloads⟩, hmanifest, hciphertext⟩ := h
  have hitem : item (Json.obj members) "ciphertext" = .ok (.str ciphertext) := by
    unfold item
    rw [hciphertext]
  unfold readLine readChunk
  dsimp only [readingOf]
  rw [if_neg (Nat.not_lt.mpr hshort), hloads]
  dsimp only [Bind.bind, Except.bind]
  rw [hmanifest]
  dsimp only
  rw [hitem]
  rfl

/-- A line that holds a ciphertext, before the manifest, adds a chunk or fails; the cases are those
of what the ciphertext opens to. -/
theorem readChunk_cases {ciphertext : String} (hholds : HoldsCiphertext lib line ciphertext) :
    (∃ chunks' manifest', LineAdds lib cipher owner name chunks .null line chunks' manifest' ∧
        readChunk cipher owner name (readingOf chunks .null) ciphertext =
          .ok (readingOf chunks' manifest')) ∨
      ∃ e, LineStops lib cipher owner name chunks .null line e ∧
        readChunk cipher owner name (readingOf chunks .null) ciphertext = .error e := by
  unfold readChunk
  cases hdecrypt : cipher.decrypt ciphertext
      ⟨owner, name, "upload:chunk:" ++ toString (readingOf chunks .null).count⟩ with
  | error e => exact .inr ⟨e, .closedChunk hholds hdecrypt, rfl⟩
  | ok value =>
      dsimp only [Bind.bind, Except.bind]
      by_cases hvalue : ∃ text, value = .str text
      · obtain ⟨text, rfl⟩ := hvalue
        dsimp only
        cases hvalid : b64valid text.toList with
        | false => exact .inr ⟨_, .noBase64 hholds hdecrypt hvalid, rfl⟩
        | true =>
            rw [if_neg (by decide)]
            rcases chunkText_cases (readingOf chunks .null).content.length text with
              ⟨chunk, htext, hsize, htotal⟩ | hodd
            · have hpasses : ¬(65536 < (b64decode text.toList).length ∨
                  b64encode (b64decode text.toList) ≠ text.toList ∨
                  maxUpload < (readingOf chunks .null).content.length +
                    (b64decode text.toList).length) := by
                rw [chunkTest_iff]
                intro hall
                rcases hall chunk htext with h | h
                · omega
                · omega
              rw [if_neg hpasses, htext, b64decode_encode]
              have hstored : text = String.ofList (b64encode chunk) := by
                rw [← htext, String.ofList_toList]
              refine .inl ⟨_, _, .chunk hholds (hstored ▸ hdecrypt) hsize htotal, ?_⟩
              unfold readingOf
              rw [List.length_append, List.length_singleton, List.flatten_append,
                List.flatten_singleton]
              rfl
            · rw [if_pos (chunkTest_iff.mpr hodd)]
              exact .inr ⟨_, .oddChunk hholds hdecrypt hvalid hodd, rfl⟩
      · have hodd : ∀ text, value ≠ .str text := fun text h => hvalue ⟨text, h⟩
        refine .inr ⟨_, .noText hholds hdecrypt hodd, ?_⟩
        split
        · next text => exact absurd rfl (hodd text)
        · rfl

/-- Every line adds to what has been read, or fails, and the loop does just that. -/
theorem readLine_cases (lib : Encodings) (cipher : PrivateDataCipher) (owner name : String)
    (chunks : List Bytes) (manifest : Json) (line : Bytes) :
    (∃ chunks' manifest', LineAdds lib cipher owner name chunks manifest line chunks' manifest' ∧
        readLine lib cipher owner name (readingOf chunks manifest) line =
          .ok (readingOf chunks' manifest')) ∨
      ∃ e, LineStops lib cipher owner name chunks manifest line e ∧
        readLine lib cipher owner name (readingOf chunks manifest) line = .error e := by
  generalize hline : readLine lib cipher owner name (readingOf chunks manifest) line = result
  have hturn := hline
  unfold readLine at hturn
  by_cases hnull : manifest = .null
  case neg =>
    refine .inr ⟨_, .late hnull, ?_⟩
    dsimp only [readingOf] at hturn
    split at hturn
    · exact absurd rfl hnull
    · exact hturn.symm
  subst hnull
  dsimp only [readingOf] at hturn
  by_cases hlength : 524288 < line.length
  · rw [if_pos hlength] at hturn
    exact .inr ⟨_, .tooLong hlength, hturn.symm⟩
  rw [if_neg hlength] at hturn
  have hshort : line.length ≤ 524288 := Nat.not_lt.mp hlength
  cases hloads : lib.loads line with
  | error e =>
      rw [hloads] at hturn
      exact .inr ⟨e, .noJson hshort hloads, hturn.symm⟩
  | ok value =>
      rw [hloads] at hturn
      dsimp only [Bind.bind, Except.bind] at hturn
      by_cases hvalue : ∃ members, value = .obj members
      case neg =>
        have hodd : ∀ members, value ≠ .obj members := fun members h => hvalue ⟨members, h⟩
        refine .inr ⟨_, .noObject hshort hloads hodd, ?_⟩
        split at hturn
        · next members => exact absurd rfl (hodd members)
        · exact hturn.symm
      obtain ⟨members, rfl⟩ := hvalue
      have hobject : HoldsObject lib line members := ⟨hshort, hloads⟩
      dsimp only at hturn
      cases hmanifest : (Json.obj members).get? "manifest" with
      | some encrypted =>
          rw [hmanifest] at hturn
          dsimp only at hturn
          rcases asText_cases encrypted with ⟨ciphertext, rfl, htext⟩ | ⟨hodd, htext⟩
          · rw [htext] at hturn
            have hholds : HoldsManifest lib line ciphertext := ⟨members, hobject, hmanifest⟩
            dsimp only at hturn
            cases hdecrypt : cipher.decrypt ciphertext ⟨owner, name, "upload:manifest"⟩ with
            | error e =>
                rw [hdecrypt] at hturn
                exact .inr ⟨e, .closedManifest hholds hdecrypt, hturn.symm⟩
            | ok manifest' =>
                rw [hdecrypt] at hturn
                exact .inl ⟨_, _, .manifest hholds hdecrypt, hturn.symm⟩
          · rw [htext] at hturn
            exact .inr ⟨_, .oddManifest hobject hmanifest hodd, hturn.symm⟩
      | none =>
          rw [hmanifest] at hturn
          dsimp only at hturn
          unfold item at hturn
          cases hciphertext : (Json.obj members).get? "ciphertext" with
          | none =>
              rw [hciphertext] at hturn
              exact .inr ⟨_, .noCiphertext hobject hmanifest hciphertext, hturn.symm⟩
          | some encrypted =>
              rw [hciphertext] at hturn
              dsimp only at hturn
              rcases asText_cases encrypted with ⟨ciphertext, rfl, -⟩ | ⟨hodd, htext⟩
              · have hholds : HoldsCiphertext lib line ciphertext :=
                  ⟨members, hobject, hmanifest, hciphertext⟩
                rw [← hline, readLine_of_ciphertext hholds]
                exact readChunk_cases hholds
              · rw [htext] at hturn
                exact .inr ⟨_, .oddCiphertext hobject hmanifest hciphertext hodd, hturn.symm⟩

theorem readLine_of_manifest {ciphertext : String} (h : HoldsManifest lib line ciphertext) :
    readLine lib cipher owner name (readingOf chunks .null) line =
      (cipher.decrypt ciphertext ⟨owner, name, "upload:manifest"⟩).map (readingOf chunks) := by
  obtain ⟨members, ⟨hshort, hloads⟩, hmanifest⟩ := h
  unfold readLine
  dsimp only [readingOf]
  rw [if_neg (Nat.not_lt.mpr hshort), hloads]
  dsimp only [Bind.bind, Except.bind]
  rw [hmanifest]
  rfl

/-- A line that adds to what has been read passes the loop, with what it adds. -/
theorem LineAdds.readLine_eq {chunks' : List Bytes} {manifest' : Json}
    (h : LineAdds lib cipher owner name chunks manifest line chunks' manifest') :
    readLine lib cipher owner name (readingOf chunks manifest) line =
      .ok (readingOf chunks' manifest') := by
  cases h with
  | @chunk _ chunk ciphertext hholds hdecrypt hsize htotal =>
      have hpasses : ¬(65536 < chunk.length ∨ b64encode chunk ≠ b64encode chunk ∨
          maxUpload < (readingOf chunks .null).content.length + chunk.length) := by
        rintro (h | h | h)
        · omega
        · exact h rfl
        · have htotal' : (readingOf chunks .null).content.length + chunk.length ≤ maxUpload := htotal
          omega
      have hdecrypt' : cipher.decrypt ciphertext
          ⟨owner, name, "upload:chunk:" ++ toString (readingOf chunks .null).count⟩ =
            .ok (.str (String.ofList (b64encode chunk))) := hdecrypt
      rw [readLine_of_ciphertext hholds]
      unfold readChunk
      rw [hdecrypt']
      dsimp only [Bind.bind, Except.bind]
      rw [String.toList_ofList, b64valid_encode, if_neg (by decide), b64decode_encode,
        if_neg hpasses]
      unfold readingOf
      rw [List.length_append, List.length_singleton, List.flatten_append, List.flatten_singleton]
      rfl
  | manifest hholds hdecrypt =>
      rw [readLine_of_manifest hholds, hdecrypt]
      rfl

/-- A line that fails fails the loop, with what it raises.  The cases follow the checks of the loop
in their order: the manifest behind which nothing may come, the length of the line, its JSON, its
keys, the decryption, the Base64 of a chunk and its size. -/
theorem LineStops.readLine_eq {e : Exc}
    (h : LineStops lib cipher owner name chunks manifest line e) :
    readLine lib cipher owner name (readingOf chunks manifest) line = .error e := by
  -- the two kinds of lines with a ciphertext are read by their own equations
  cases h with
  | late hlate =>
      unfold readLine
      dsimp only [readingOf]
      split
      · exact absurd rfl hlate
      · rfl
  | tooLong hlong =>
      unfold readLine
      dsimp only [readingOf]
      rw [if_pos hlong]
  | noJson hshort hloads =>
      unfold readLine
      dsimp only [readingOf]
      rw [if_neg (Nat.not_lt.mpr hshort), hloads]
      rfl
  | noObject hshort hloads hodd =>
      unfold readLine
      dsimp only [readingOf]
      rw [if_neg (Nat.not_lt.mpr hshort), hloads]
      dsimp only [Bind.bind, Except.bind]
      split
      · next members => exact absurd rfl (hodd members)
      · rfl
  | oddManifest hobject hmanifest hodd =>
      unfold readLine
      dsimp only [readingOf]
      rw [if_neg (Nat.not_lt.mpr hobject.1), hobject.2]
      dsimp only [Bind.bind, Except.bind]
      rw [hmanifest]
      dsimp only
      rw [asText_of_odd hodd]
  | closedManifest hholds hdecrypt =>
      rw [readLine_of_manifest hholds, hdecrypt]
      rfl
  | noCiphertext hobject hmanifest hciphertext =>
      unfold readLine item
      dsimp only [readingOf]
      rw [if_neg (Nat.not_lt.mpr hobject.1), hobject.2]
      dsimp only [Bind.bind, Except.bind]
      rw [hmanifest, hciphertext]
  | oddCiphertext hobject hmanifest hciphertext hodd =>
      unfold readLine item
      dsimp only [readingOf]
      rw [if_neg (Nat.not_lt.mpr hobject.1), hobject.2]
      dsimp only [Bind.bind, Except.bind]
      rw [hmanifest, hciphertext]
      dsimp only
      rw [asText_of_odd hodd]
  | closedChunk hholds hdecrypt =>
      rw [readLine_of_ciphertext hholds]
      exact bind_eq_error.mpr (.inl hdecrypt)
  | noText hholds hdecrypt hodd =>
      rw [readLine_of_ciphertext hholds]
      refine bind_eq_error.mpr (.inr ⟨_, hdecrypt, ?_⟩)
      split
      · next text => exact absurd rfl (hodd text)
      · rfl
  | noBase64 hholds hdecrypt hvalid =>
      rw [readLine_of_ciphertext hholds]
      refine bind_eq_error.mpr (.inr ⟨_, hdecrypt, ?_⟩)
      dsimp only
      rw [hvalid]
      rfl
  | oddChunk hholds hdecrypt hvalid hodd =>
      rw [readLine_of_ciphertext hholds]
      refine bind_eq_error.mpr (.inr ⟨_, hdecrypt, ?_⟩)
      dsimp only
      rw [hvalid, if_neg (by decide)]
      exact if_pos (chunkTest_iff.mpr hodd)

/-- The loop passes the lines exactly when they hold chunks and a manifest, which it then has
read. -/
theorem readLines_ok_iff {lines : List Bytes} {r : Reading} :
    lines.foldlM (readLine lib cipher owner name) (readingOf [] .null) = .ok r ↔
      ∃ chunks manifest, LinesRead lib cipher owner name lines chunks manifest ∧
        r = readingOf chunks manifest := by
  induction lines using List.reverseRecOn generalizing r with
  | nil =>
      constructor
      · intro h
        cases h
        exact ⟨[], .null, .nil, rfl⟩
      · rintro ⟨chunks, manifest, hread, rfl⟩
        generalize hlines : ([] : List Bytes) = lines at hread
        cases hread with
        | nil => rfl
        | snoc _ _ => simp at hlines
  | append_singleton before line ih =>
      rw [List.foldlM_append, bind_eq_ok]
      constructor
      · rintro ⟨r', hbefore, hline⟩
        obtain ⟨chunks, manifest, hread, rfl⟩ := ih.mp hbefore
        rw [List.foldlM_cons, bind_eq_ok] at hline
        obtain ⟨r'', hline, hend⟩ := hline
        cases hend
        rcases readLine_cases lib cipher owner name chunks manifest line with
          ⟨chunks', manifest', hadds, hok⟩ | ⟨e, -, herror⟩
        · cases hline.symm.trans hok
          exact ⟨chunks', manifest', .snoc hread hadds, rfl⟩
        · cases hline.symm.trans herror
      · rintro ⟨chunks, manifest, hread, rfl⟩
        generalize hlines : before ++ [line] = lines at hread
        cases hread with
        | nil => simp at hlines
        | snoc hbefore hadds =>
            obtain ⟨rfl, hlast⟩ := List.append_inj' hlines rfl
            cases hlast
            refine ⟨_, ih.mpr ⟨_, _, hbefore, rfl⟩, ?_⟩
            rw [List.foldlM_cons, hadds.readLine_eq]
            rfl

/-- The last check passes exactly a manifest that fits. -/
theorem matchesUpload_iff :
    matchesUpload lib (readingOf chunks manifest) = true ↔ ManifestFits lib manifest chunks := by
  unfold matchesUpload
  rw [Bool.and_eq_true, Bool.and_eq_true, decide_eq_true_eq, decide_eq_true_eq]
  constructor
  · rintro ⟨⟨hcount, hbytes⟩, hdigest⟩
    refine ⟨hcount, hbytes, ?_⟩
    split at hdigest
    · next digest hfound =>
        have hmanifest : manifest.get? "sha256" = some (.str digest) := hfound
        rw [hmanifest, of_decide_eq_true hdigest]
        rfl
    · cases hdigest
  · intro h
    refine ⟨⟨h.count, h.bytes⟩, ?_⟩
    have hdigest : (readingOf chunks manifest).manifest.get? "sha256" =
        some (.str (lib.sha256 chunks.flatten)) := h.digest
    rw [hdigest]
    exact decide_eq_true rfl

end Loop

/-! ## The staged original -/

/-- The staged original is in its place and can be read: its header is followed by lines that hold
this content, and by a manifest that fits it. -/
structure Intact (env : IngestEnv) (job : IngestJob) (content : Bytes) : Prop where
  placed : env.file.misplaced = false
  memory : env.volatile = true
  lines : ∃ lines chunks manifest, env.file.lines = some (uploadHeader :: lines) ∧
    LinesRead env.lib env.cipher job.userId.str job.path.name lines chunks manifest ∧
    ManifestFits env.lib manifest chunks ∧ content = chunks.flatten

section Reading

variable {env : IngestEnv} {job : IngestJob}

/-- Reading a staged original that is where it should be, under the header of an upload. -/
theorem readStaged_eq {lines : List Bytes} (hplaced : env.file.misplaced = false)
    (hmemory : env.volatile = true) (hlines : env.file.lines = some (uploadHeader :: lines)) :
    readStaged env.lib env.cipher env.volatile job env.file =
      (lines.foldlM (readLine env.lib env.cipher job.userId.str job.path.name)
        (readingOf [] .null) >>= fun r =>
          if matchesUpload env.lib r then pure r.content else .error .privateDataUnavailable) := by
  unfold readStaged
  rw [hplaced, hmemory, hlines, if_neg (by decide), if_neg (by decide)]
  dsimp only
  rw [if_neg (fun hne => hne rfl)]
  rfl

/-- An original that is read has been intact: header, lines, a manifest that fits, and the volatile
directory to put it in. -/
theorem intact_of_readStaged {content : Bytes}
    (h : readStaged env.lib env.cipher env.volatile job env.file = .ok content) :
    Intact env job content := by
  have hread := h
  unfold readStaged at h
  split at h
  · cases h
  next hplaced =>
  split at h
  · cases h
  next hmemory =>
  rw [Bool.not_eq_true] at hplaced
  rw [Bool.not_eq_true', Bool.not_eq_false] at hmemory
  split at h
  · cases h
  · cases h
  next header lines hlines =>
  split at h
  · cases h
  next hheader =>
  obtain rfl := Classical.not_not.mp hheader
  rw [readStaged_eq hplaced hmemory hlines] at hread
  obtain ⟨r, hr, hend⟩ := bind_eq_ok.mp hread
  obtain ⟨chunks, manifest, hheld, rfl⟩ := readLines_ok_iff.mp hr
  split at hend
  · next hmatches =>
      cases hend
      exact ⟨hplaced, hmemory, lines, chunks, manifest, hlines, hheld, matchesUpload_iff.mp hmatches,
        rfl⟩
  · cases hend

theorem readStaged_ok_iff {content : Bytes} :
    readStaged env.lib env.cipher env.volatile job env.file = .ok content ↔
      Intact env job content := by
  refine ⟨intact_of_readStaged, ?_⟩
  rintro ⟨hplaced, hmemory, lines, chunks, manifest, hlines, hread, hfits, rfl⟩
  rw [readStaged_eq hplaced hmemory hlines]
  refine bind_eq_ok.mpr ⟨_, readLines_ok_iff.mpr ⟨chunks, manifest, hread, rfl⟩, ?_⟩
  rw [if_pos (matchesUpload_iff.mpr hfits)]
  rfl

end Reading

end PortRag.Ingest
