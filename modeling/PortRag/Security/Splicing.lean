import PortRag.Security.Fields

set_option autoImplicit false

/-!
# Spliced ciphertext

What the cipher accepts was encrypted as a whole: over any history of encryptions under the
fields of the service, an envelope that decrypts under a binding decrypts to a value that was
encrypted under this binding.  The chunks of a large value and the fields of staged uploads
are the exceptions.
-/

namespace PortRag.Security

open PortRag.Foundation

/-- What the cipher relies on in its libraries: JSON text is read back as its value, and no two
byte strings have the same SHA-256. -/
structure Encodings.Lawful (lib : Encodings) : Prop where
  loads_dumps : ∀ {value raw}, lib.dumps value = .ok raw → lib.loads raw = .ok value
  sha256_injective : Function.Injective lib.sha256

/-- What Transit decrypts under some associated data, it has been asked to encrypt under it. -/
def Transit.Authentic (service : Transit) : Prop :=
  ∀ requests ciphertext data raw, service.decrypt requests ciphertext data = .ok raw →
    ⟨raw, data⟩ ∈ requests

/-- The history of calls of `encrypt`, one after the other, whatever their outcome. -/
def encryptAll (lib : Encodings) (service : Transit) (depth : Nat) :
    List (Json × StorageBinding) → History → History
  | [], h => h
  | (value, binding) :: rest, h =>
      encryptAll lib service depth rest (encrypt lib service depth value binding h).2

/-- The history of these calls from the start. -/
def historyOf (lib : Encodings) (service : Transit) (depth : Nat)
    (values : List (Json × StorageBinding)) : History :=
  encryptAll lib service depth values ⟨[], []⟩

/-! ## What a history holds -/

/-- A request to Transit carries the JSON text of a value that was encrypted under its binding,
or belongs to a chunk of a value. -/
def Explained (lib : Encodings) (calls : List (Json × StorageBinding)) (r : Request) : Prop :=
  (∃ value binding, (value, binding) ∈ calls ∧ lib.dumps value = .ok r.plaintext ∧
    binding.associatedData = .ok r.associatedData) ∨
  ∃ value binding index, (value, binding) ∈ calls ∧
    (binding.part (chunkName index)).associatedData = .ok r.associatedData

/-- A call of `encrypt` was made by the service, or by `encrypt` for the manifest of a value. -/
structure Founded (lib : Encodings) (values calls : List (Json × StorageBinding))
    (c : Json × StorageBinding) : Prop where
  field : ValueField c.2.field
  origin : c ∈ values ∨ ∃ value binding raw, (value, binding) ∈ calls ∧
    lib.dumps value = .ok raw ∧ c = (manifestOf lib raw, binding.part "manifest")

/-- The invariant of the history. -/
structure Coherent (lib : Encodings) (values : List (Json × StorageBinding)) (h : History) :
    Prop where
  requests : ∀ r ∈ h.requests, Explained lib h.calls r
  calls : ∀ c ∈ h.calls, Founded lib values h.calls c

/-- A history that goes on from another. -/
structure Extends (h h' : History) : Prop where
  requests : ∀ r ∈ h.requests, r ∈ h'.requests
  calls : ∀ c ∈ h.calls, c ∈ h'.calls

theorem Extends.refl (h : History) : Extends h h := ⟨fun _ hr => hr, fun _ hc => hc⟩

theorem Extends.trans {a b c : History} (h : Extends a b) (h' : Extends b c) : Extends a c :=
  ⟨fun r hr => h'.requests r (h.requests r hr), fun x hx => h'.calls x (h.calls x hx)⟩

section History

variable {lib : Encodings} {service : Transit} {values : List (Json × StorageBinding)}

theorem Explained.mono {calls calls' : List (Json × StorageBinding)} {r : Request}
    (h : Explained lib calls r) (hsub : ∀ c ∈ calls, c ∈ calls') : Explained lib calls' r := by
  rcases h with ⟨value, binding, hcall, h⟩ | ⟨value, binding, index, hcall, h⟩
  · exact .inl ⟨value, binding, hsub _ hcall, h⟩
  · exact .inr ⟨value, binding, index, hsub _ hcall, h⟩

theorem Founded.mono {calls calls' : List (Json × StorageBinding)} {c : Json × StorageBinding}
    (h : Founded lib values calls c) (hsub : ∀ c ∈ calls, c ∈ calls') :
    Founded lib values calls' c := by
  refine ⟨h.field, ?_⟩
  rcases h.origin with h | ⟨value, binding, raw, hcall, h⟩
  · exact .inl h
  · exact .inr ⟨value, binding, raw, hsub _ hcall, h⟩

/-- A call with a foundation joins the history. -/
theorem Coherent.call {h : History} (hcoherent : Coherent lib values h)
    {c : Json × StorageBinding} (hc : Founded lib values h.calls c) :
    Coherent lib values { h with calls := h.calls ++ [c] } := by
  have hsub : ∀ x ∈ h.calls, x ∈ h.calls ++ [c] := fun x hx => List.mem_append_left _ hx
  constructor
  · exact fun r hr => (hcoherent.requests r hr).mono hsub
  · intro x hx
    rcases List.mem_append.mp hx with hx | hx
    · exact (hcoherent.calls x hx).mono hsub
    · rw [List.mem_singleton.mp hx]
      exact hc.mono hsub

/-- One request of `_transit`. -/
theorem transitEncrypt_coherent {raw : Bytes} {binding : StorageBinding} {h : History}
    (hcoherent : Coherent lib values h)
    (hr : ∀ data, binding.associatedData = .ok data → Explained lib h.calls ⟨raw, data⟩) :
    Coherent lib values (transitEncrypt service raw binding h).2 ∧
      Extends h (transitEncrypt service raw binding h).2 ∧
      (transitEncrypt service raw binding h).2.calls = h.calls := by
  unfold transitEncrypt
  split
  · exact ⟨hcoherent, .refl h, rfl⟩
  · next data hdata =>
      -- whatever the answer, the request has been made
      have hmade : Coherent lib values { h with requests := h.requests ++ [⟨raw, data⟩] } := by
        refine ⟨?_, hcoherent.calls⟩
        intro r hr'
        rcases List.mem_append.mp hr' with hr' | hr'
        · exact hcoherent.requests r hr'
        · rw [List.mem_singleton.mp hr']
          exact hr data hdata
      have hextends : Extends h { h with requests := h.requests ++ [⟨raw, data⟩] } :=
        ⟨fun r hr' => List.mem_append_left _ hr', fun _ hc => hc⟩
      dsimp only
      split
      · split
        · exact ⟨hmade, hextends, rfl⟩
        · exact ⟨hmade, hextends, rfl⟩
      · exact ⟨hmade, hextends, rfl⟩

/-- The requests for the chunks of a value: each is traced back to the call that they belong to, and
no further call is recorded. -/
theorem encryptChunks_coherent {value : Json} {binding : StorageBinding}
    (chunks : List (Bytes × Nat)) {h : History} (hcoherent : Coherent lib values h)
    (hcall : (value, binding) ∈ h.calls) :
    Coherent lib values (encryptChunks service binding chunks h).2 ∧
      Extends h (encryptChunks service binding chunks h).2 ∧
      (encryptChunks service binding chunks h).2.calls = h.calls := by
  induction chunks generalizing h with
  | nil => exact ⟨hcoherent, .refl h, rfl⟩
  | cons chunk rest ih =>
      obtain ⟨raw, index⟩ := chunk
      have hstep := @transitEncrypt_coherent lib service values raw
        (binding.part (chunkName index)) h hcoherent
        (fun data hdata => .inr ⟨value, binding, index, hcall, hdata⟩)
      unfold encryptChunks
      split
      · next e h' heq =>
          rw [heq] at hstep
          exact hstep
      · next ciphertext h' heq =>
          rw [heq] at hstep
          obtain ⟨hmid, hextends, hcalls⟩ := hstep
          obtain ⟨hend, hextends', hcalls'⟩ := ih hmid (by rw [hcalls]; exact hcall)
          have hdone : Coherent lib values (encryptChunks service binding rest h').2 ∧
              Extends h (encryptChunks service binding rest h').2 ∧
              (encryptChunks service binding rest h').2.calls = h.calls :=
            ⟨hend, hextends.trans hextends', hcalls'.trans hcalls⟩
          split
          · next heq' =>
              rw [heq'] at hdone
              exact hdone
          · next heq' =>
              rw [heq'] at hdone
              exact hdone

/-- A call of `encrypt` keeps the invariant, whatever its outcome: a call that raises has sent its
first requests all the same. -/
theorem encrypt_coherent {depth : Nat} {value : Json} {binding : StorageBinding} {h : History}
    (hcoherent : Coherent lib values h) (hc : Founded lib values h.calls (value, binding)) :
    Coherent lib values (encrypt lib service depth value binding h).2 ∧
      Extends h (encrypt lib service depth value binding h).2 := by
  induction depth generalizing value binding h with
  | zero => exact ⟨hcoherent, .refl h⟩
  | succ depth ih =>
      have hcalled := hcoherent.call hc
      have hcall : (value, binding) ∈ h.calls ++ [(value, binding)] :=
        List.mem_append_right _ (List.mem_singleton.mpr rfl)
      have hextends : Extends h { h with calls := h.calls ++ [(value, binding)] } :=
        ⟨fun _ hr => hr, fun _ hx => List.mem_append_left _ hx⟩
      unfold encrypt
      dsimp only
      split
      · exact ⟨hcalled, hextends⟩
      · next raw hraw =>
          split
          · exact ⟨hcalled, hextends⟩
          split
          · -- a small value is one request
            obtain ⟨hdone, hextends', -⟩ := @transitEncrypt_coherent lib service values raw binding _
              hcalled (fun data hdata => .inl ⟨value, binding, hcall, hraw, hdata⟩)
            exact ⟨hdone, hextends.trans hextends'⟩
          · have hchunks := @encryptChunks_coherent lib service values value binding
              (slices raw).zipIdx _ hcalled hcall
            split
            · next heq =>
                rw [heq] at hchunks
                exact ⟨hchunks.1, hextends.trans hchunks.2.1⟩
            · next h' heq =>
                rw [heq] at hchunks
                obtain ⟨hmid, hextends', hcalls⟩ := hchunks
                -- the call for the manifest is founded on this one
                have hfounded : Founded lib values h'.calls
                    (manifestOf lib raw, binding.part "manifest") := by
                  refine ⟨.manifest hc.field, .inr ⟨value, binding, raw, ?_, hraw, rfl⟩⟩
                  rw [hcalls]
                  exact hcall
                have hmanifest := ih hmid hfounded
                split
                · next heq' =>
                    rw [heq'] at hmanifest
                    exact ⟨hmanifest.1, hextends.trans (hextends'.trans hmanifest.2)⟩
                · next heq' =>
                    rw [heq'] at hmanifest
                    exact ⟨hmanifest.1, hextends.trans (hextends'.trans hmanifest.2)⟩

/-- The invariant over a history. -/
theorem encryptAll_coherent {depth : Nat} (rest : List (Json × StorageBinding)) {h : History}
    (hbase : ∀ c ∈ values, ∃ g : BaseField, c.2.field = g.text)
    (hcoherent : Coherent lib values h) (hrest : ∀ c ∈ rest, c ∈ values) :
    Coherent lib values (encryptAll lib service depth rest h) := by
  induction rest generalizing h with
  | nil => exact hcoherent
  | cons c rest ih =>
      obtain ⟨value, binding⟩ := c
      have hmem := hrest _ List.mem_cons_self
      have hc : Founded lib values h.calls (value, binding) := by
        obtain ⟨g, hg⟩ := hbase _ hmem
        refine ⟨?_, .inl hmem⟩
        rw [hg]
        exact .base g
      have hstep := @encrypt_coherent lib service values depth value binding h hcoherent hc
      exact ih hstep.1 (fun x hx => hrest x (List.mem_cons_of_mem _ hx))

theorem historyOf_coherent (hbase : ∀ c ∈ values, ∃ g : BaseField, c.2.field = g.text)
    (depth : Nat) : Coherent lib values (historyOf lib service depth values) := by
  apply encryptAll_coherent _ hbase
  · constructor
    · intro r hr
      cases hr
    · intro c hc
      cases hc
  · exact fun c hc => hc

end History

/-! ## What is accepted -/

section Accepted

variable {lib : Encodings} {service : Transit} {values : List (Json × StorageBinding)}
  {h : History}

/-- What `_transit` decrypts was requested under the same binding. -/
theorem transitDecrypt_ok {value : Json} {binding : StorageBinding} {raw : Bytes}
    (hauthentic : service.Authentic) (hrun : transitDecrypt service h value binding = .ok raw) :
    ∃ data, binding.associatedData = .ok data ∧ ⟨raw, data⟩ ∈ h.requests := by
  unfold transitDecrypt at hrun
  split at hrun
  · split at hrun
    · split at hrun
      · cases hrun
      · next data hdata =>
          split at hrun
          · next hanswer =>
              split at hrun
              · cases hrun
              · cases hrun
                exact ⟨data, hdata, hauthentic _ _ _ _ hanswer⟩
          · cases hrun
    · cases hrun
  · cases hrun

/-- What `decrypt` did with an envelope. -/
theorem decrypt_ok {depth : Nat} {text : String} {binding : StorageBinding} {value : Json}
    (hrun : decrypt lib service h (depth + 1) text binding = .ok value) :
    (∃ inner manifest raw bytes, decrypt lib service h depth inner (binding.part "manifest") =
        .ok manifest ∧ matchesManifest lib manifest bytes raw = true ∧ lib.loads raw = .ok value) ∨
      ∃ raw, transitDecrypt service h (.str text) binding = .ok raw ∧ lib.loads raw = .ok value := by
  unfold decrypt at hrun
  split at hrun
  · obtain ⟨envelope, -, hrun⟩ := bind_eq_ok.mp hrun
    obtain ⟨inner, -, hrun⟩ := bind_eq_ok.mp hrun
    obtain ⟨innerText, -, hrun⟩ := bind_eq_ok.mp hrun
    obtain ⟨manifest, hmanifest, hrun⟩ := bind_eq_ok.mp hrun
    obtain ⟨items, -, hrun⟩ := bind_eq_ok.mp hrun
    split at hrun
    · obtain ⟨bytes, -, hrun⟩ := bind_eq_ok.mp hrun
      obtain ⟨parts, -, hrun⟩ := bind_eq_ok.mp hrun
      split at hrun
      · next hmatches => exact .inl ⟨innerText, manifest, parts.flatten, bytes, hmanifest, hmatches, hrun⟩
      · cases hrun
    · cases hrun
  · obtain ⟨raw, hraw, hrun⟩ := bind_eq_ok.mp hrun
    exact .inr ⟨raw, hraw, hrun⟩

/-- Bytes that match the manifest of a text are this text. -/
theorem eq_of_matchesManifest (hlib : lib.Lawful) {text raw : Bytes} {bytes : Nat}
    (hmatches : matchesManifest lib (manifestOf lib text) bytes raw = true) : raw = text := by
  have hdigest : (manifestOf lib text).get? "sha256" = some (.str (lib.sha256 text)) := rfl
  unfold matchesManifest at hmatches
  rw [hdigest] at hmatches
  simp only [Bool.and_eq_true, decide_eq_true_eq] at hmatches
  exact hlib.sha256_injective hmatches.2

theorem part_injective {a b : StorageBinding} {name : String} (h : a.part name = b.part name) :
    a = b := by
  cases a
  cases b
  simp only [StorageBinding.part, StorageBinding.mk.injEq] at h ⊢
  obtain ⟨howner, hresource, hfield⟩ := h
  refine ⟨howner, hresource, ?_⟩
  exact String.append_left_inj _ |>.mp (String.append_left_inj _ |>.mp hfield)

/-- What decrypts under a binding was encrypted under it, unless the binding belongs to a chunk
or to staged uploads: by induction on the depth of the manifests. -/
theorem mem_calls_of_decrypt (hlib : lib.Lawful) (hauthentic : service.Authentic)
    (hbase : ∀ c ∈ values, ∃ g : BaseField, c.2.field = g.text)
    (hcoherent : Coherent lib values h) {depth : Nat} {text : String} {binding : StorageBinding}
    {value : Json} (hupload : binding.field ≠ "upload")
    (hchunk : ∀ field index, ValueField field → binding.field ≠ field ++ ":" ++ chunkName index)
    (hrun : decrypt lib service h depth text binding = .ok value) : (value, binding) ∈ h.calls := by
  induction depth generalizing text binding value with
  | zero => cases hrun
  | succ depth ih =>
      rcases decrypt_ok hrun with
        ⟨inner, manifest, raw, bytes, hmanifest, hmatches, hloads⟩ | ⟨raw, hraw, hloads⟩
      · -- the manifest was encrypted for a value, and the chunks have its digest
        have hcall : (manifest, binding.part "manifest") ∈ h.calls :=
          ih (manifest_ne_upload _) (fun field index _ => manifest_ne_chunk _ field index) hmanifest
        rcases (hcoherent.calls _ hcall).origin with hvalue | ⟨value', binding', text', hmem, hdumps, heq⟩
        · obtain ⟨g, hg⟩ := hbase _ hvalue
          exact absurd (eq_upload_of_base hg) hupload
        · obtain ⟨rfl, hpart⟩ := Prod.mk.inj heq
          obtain rfl := part_injective hpart
          rw [eq_of_matchesManifest hlib hmatches, hlib.loads_dumps hdumps] at hloads
          cases hloads
          exact hmem
      · obtain ⟨data, hdata, hrequest⟩ := transitDecrypt_ok hauthentic hraw
        rcases hcoherent.requests _ hrequest with
          ⟨value', binding', hmem, hdumps, hdata'⟩ | ⟨value', binding', index, hmem, hdata'⟩
        · obtain rfl := associatedData_injective hdata hdata'
          rw [hlib.loads_dumps hdumps] at hloads
          cases hloads
          exact hmem
        · have hpart := associatedData_injective hdata hdata'
          exact absurd (congrArg StorageBinding.field hpart)
            (hchunk _ index (hcoherent.calls _ hmem).field)

end Accepted

/-- No spliced ciphertext is accepted: what decrypts under a binding, other than that of a chunk
or of staged uploads, is a value that `encrypt` was called with under this binding; under a
field of the service, by the service. -/
theorem decrypt_was_encrypted (lib : Encodings) (service : Transit) (hlib : lib.Lawful)
    (hauthentic : service.Authentic) (values : List (Json × StorageBinding))
    (hbase : ∀ c ∈ values, ∃ g : BaseField, c.2.field = g.text) (depth depth' : Nat)
    (text : String) (binding : StorageBinding) (value : Json)
    (hupload : binding.field ≠ "upload")
    (hchunk : ∀ field index, ValueField field → binding.field ≠ field ++ ":" ++ chunkName index)
    (hrun : decrypt lib service (historyOf lib service depth values) depth' text binding =
      .ok value) :
    (value, binding) ∈ (historyOf lib service depth values).calls ∧
      ((∃ g : BaseField, binding.field = g.text) → (value, binding) ∈ values) := by
  have hcoherent := @historyOf_coherent lib service values hbase depth
  have hcall := mem_calls_of_decrypt hlib hauthentic hbase hcoherent hupload hchunk hrun
  refine ⟨hcall, ?_⟩
  rintro ⟨g, hg⟩
  rcases (hcoherent.calls _ hcall).origin with hvalue | ⟨value', binding', text', hmem, -, heq⟩
  · exact hvalue
  · -- a manifest under a base field would be one of `upload`, under which nothing is encrypted
    obtain ⟨-, rfl⟩ := Prod.mk.inj heq
    exact absurd (eq_upload_of_base hg) (hcoherent.calls _ hmem).field.ne_upload

/-! ## The fields of staged uploads

The manifest of a staged upload has the members of the cipher's own manifests, and stands under
the field that the manifest of a value under `upload` would have. -/

/-- The JSON text of the sample value. -/
def spliceText : Bytes := utf8 "\"a\""

/-- The SHA-256 of the JSON text, in hexadecimal. -/
def spliceDigest : String := "ac8d8342bbb2362d13f0a559a3621bb407011368895164b628a54f7fc33fc43c"

/-- A manifest over the sample text. -/
def spliceManifest : Json := .obj [("count", .num 1), ("bytes", .num 3), ("sha256", .str spliceDigest)]

/-- The JSON text of the manifest. -/
def spliceManifestText : Bytes :=
  utf8 ("\x7b\"count\":1,\"bytes\":3,\"sha256\":\"" ++ spliceDigest ++ "\"\x7d")

/-- The library functions on the two values. -/
def spliceEncodings : Encodings where
  dumps := fun value =>
    match value with
    | .str "a" => .ok spliceText
    | .obj [("count", .num count), ("bytes", .num bytes), ("sha256", .str digest)] =>
        if count = 1 ∧ bytes = 3 ∧ digest = spliceDigest then .ok spliceManifestText
        else .error (.other "not in the sample")
    | _ => .error (.other "not in the sample")
  loads := fun raw =>
    if raw = spliceText then .ok (.str "a")
    else if raw = spliceManifestText then .ok spliceManifest
    else .error (.valueError "Expecting value")
  dumpEnvelope := fun manifest chunks => String.ofList
    ("\x7b\"manifest\":".toList ++ quote manifest.toList ++ ",\"chunks\":".toList ++
      listText quote (chunks.map String.toList) ++ "\x7d".toList)
  loadEnvelope := fun text =>
    if text = "\x7b\"manifest\":\"vault:v1:AA\",\"chunks\":[\"vault:v1:A\"]\x7d" then
      .ok (.obj [("manifest", .str "vault:v1:AA"), ("chunks", .arr [.str "vault:v1:A"])])
    else .error (.valueError "Expecting value")
  sha256 := fun raw =>
    if raw = spliceText then spliceDigest else String.ofList ('x' :: b64encode raw)

/-- The encodings of the sample print and read its values as the libraries do. -/
theorem spliceEncodings_lawful : spliceEncodings.Lawful where
  loads_dumps := by
    intro value raw h
    simp only [spliceEncodings] at h ⊢
    split at h
    · cases h
      rw [if_pos rfl]
    · split at h
      · next hmembers =>
          cases h
          obtain ⟨rfl, rfl, rfl⟩ := hmembers
          have hne : spliceManifestText ≠ spliceText := by decide +kernel
          rw [if_neg hne, if_pos rfl]
          rfl
      · cases h
    · cases h
  sha256_injective := by
    intro a b h
    have hhead : ∀ raw : Bytes, String.ofList ('x' :: b64encode raw) ≠ spliceDigest := by
      intro raw heq
      have hfirst := congrArg (fun s : String => s.toList.head?) heq
      simp only [String.toList_ofList, List.head?_cons] at hfirst
      exact absurd hfirst (by decide +kernel)
    simp only [spliceEncodings] at h
    split at h
    · next ha =>
        split at h
        · next hb => rw [ha, hb]
        · exact absurd h.symm (hhead b)
    · split at h
      · exact absurd h (hhead a)
      · exact b64encode_injective (List.cons.inj (String.ofList_injective h)).2

/-- The ciphertext of the `n`-th request. -/
def spliceToken (n : Nat) : String := String.ofList ("vault:v1:".toList ++ List.replicate (n + 1) 'A')

/-- A Transit that numbers its ciphertexts. -/
def spliceTransit : Transit where
  encrypt := fun requests _ => .ok (spliceToken requests.length)
  decrypt := fun requests ciphertext data =>
    match requests.zipIdx.find? (fun r => spliceToken r.2 = ciphertext ∧ r.1.associatedData = data) with
    | some found => .ok found.1.plaintext
    | none => .error (.other "400 Bad Request")

theorem spliceTransit_authentic : spliceTransit.Authentic := by
  intro requests ciphertext data raw h
  simp only [spliceTransit] at h
  split at h
  · next found hfound =>
      cases h
      have hmem := List.mem_of_find?_eq_some hfound
      have hdata := List.find?_some hfound
      simp only [decide_eq_true_eq] at hdata
      have hrequest := (List.mem_zipIdx hmem).2.2
      rw [← hdata.2, hrequest]
      exact List.getElem_mem _
  · cases h

/-- The upload of the sample values. -/
def spliceValues : List (Json × StorageBinding) :=
  [(.str "a", ⟨"o", "r", "upload:chunk:0"⟩), (spliceManifest, ⟨"o", "r", "upload:manifest"⟩)]

theorem spliceValues_base : ∀ c ∈ spliceValues, ∃ g : BaseField, c.2.field = g.text := by
  intro c hc
  simp only [spliceValues, List.mem_cons, List.not_mem_nil, or_false] at hc
  rcases hc with rfl | rfl
  · exact ⟨.uploadChunk 0, by decide⟩
  · exact ⟨.uploadManifest, rfl⟩

/-- What Transit has been asked after both values were encrypted. -/
def spliceHistory : History := historyOf spliceEncodings spliceTransit 3 spliceValues

/-- The chunk and the manifest of the upload, as the envelope of a value. -/
def spliceEnvelope : String :=
  largePrefix ++ "\x7b\"manifest\":\"vault:v1:AA\",\"chunks\":[\"vault:v1:A\"]\x7d"

/-- Whether a result is this text. -/
def isText (text : String) : Except Exc Json → Bool
  | .ok (.str s) => s = text
  | _ => false

theorem eq_of_isText {text : String} {result : Except Exc Json} (h : isText text result = true) :
    result = .ok (.str text) := by
  unfold isText at h
  split at h
  · rw [of_decide_eq_true h]
  · cases h

/-- Under the field `upload`, where nothing is encrypted, the parts of an upload decrypt. -/
theorem upload_parts_decrypt :
    ¬ ∀ (lib : Encodings) (service : Transit), lib.Lawful → service.Authentic →
      ∀ values : List (Json × StorageBinding), (∀ c ∈ values, ∃ g : BaseField, c.2.field = g.text) →
        ∀ depth depth' text binding value,
          decrypt lib service (historyOf lib service depth values) depth' text binding = .ok value →
            (value, binding) ∈ (historyOf lib service depth values).calls := by
  intro h
  have hrun : isText "a" (decrypt spliceEncodings spliceTransit spliceHistory 3 spliceEnvelope
      ⟨"o", "r", "upload"⟩) = true := by decide +kernel
  have hcall := h spliceEncodings spliceTransit spliceEncodings_lawful spliceTransit_authentic
    spliceValues spliceValues_base 3 3 spliceEnvelope ⟨"o", "r", "upload"⟩ (.str "a")
    (eq_of_isText hrun)
  have hfields : "upload" ∉ spliceHistory.calls.map (fun c => c.2.field) := by decide +kernel
  exact hfields (List.mem_map_of_mem (f := fun c => c.2.field) hcall)

/-- The manifest of the upload itself decrypts to what was encrypted. -/
theorem decrypt_was_encrypted_upload :
    (spliceManifest, (⟨"o", "r", "upload:manifest"⟩ : StorageBinding)) ∈ spliceHistory.calls := by
  have hrun : decrypt spliceEncodings spliceTransit spliceHistory 3 "vault:v1:AA"
      ⟨"o", "r", "upload:manifest"⟩ = .ok spliceManifest := by
    have hraw : transitDecrypt spliceTransit spliceHistory (.str "vault:v1:AA")
        ⟨"o", "r", "upload:manifest"⟩ = .ok spliceManifestText := by decide +kernel
    have hplain : startsWith "vault:v1:AA" largePrefix = false := by decide +kernel
    have hne : spliceManifestText ≠ spliceText := by decide +kernel
    have hloads : spliceEncodings.loads spliceManifestText = .ok spliceManifest := by
      simp only [spliceEncodings, if_neg hne, if_true]
    unfold decrypt
    rw [hplain, if_neg Bool.false_ne_true]
    exact bind_eq_ok.mpr ⟨_, hraw, hloads⟩
  have hencrypted := decrypt_was_encrypted spliceEncodings spliceTransit spliceEncodings_lawful
    spliceTransit_authentic spliceValues spliceValues_base 3 3 "vault:v1:AA"
    ⟨"o", "r", "upload:manifest"⟩ spliceManifest (by decide)
    (fun field index _ => manifest_ne_chunk "upload" field index) hrun
  exact hencrypted.1

end PortRag.Security
