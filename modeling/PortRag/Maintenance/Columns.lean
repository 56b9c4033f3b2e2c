import PortRag.Maintenance.Conversion

set_option autoImplicit false

/-!
# Converted columns

What the backfill relies on in the encryption service, and what it makes of one column: the
new value is encrypted, and what the run-time readers could read before they still read.
-/

namespace PortRag.Maintenance

open PortRag.Foundation PortRag.Db PortRag.Security PortRag.Http PortRag.Ingest PortRag.Knowledge
  PortRag.Webpages

/-- Decryption inverts encryption under the same binding, and the service returns ciphertext
that `encrypted` recognises. -/
structure Dependable (cipher : PrivateDataCipher) : Prop where
  decrypt_encrypt : ∀ {value binding ciphertext},
    cipher.encrypt value binding = .ok ciphertext → cipher.decrypt ciphertext binding = .ok value
  encrypt_prefix : ∀ {value binding ciphertext},
    cipher.encrypt value binding = .ok ciphertext → hasCipherPrefix ciphertext = true
  lookup_prefix : ∀ {value binding fingerprint},
    cipher.lookup value binding = .ok fingerprint → startsWith fingerprint "vault:" = true

/-! ## What a conversion keeps -/

/-- A converted text: it is encrypted, it can be read, and what it could be read as before it
still is. -/
structure TextKept (cipher : PrivateDataCipher) (binding : StorageBinding)
    (before after : String) : Prop where
  encrypted : Maintenance.encrypted after = true
  reads : ∃ plain, cipher.privateData.readText after binding = .ok plain
  read : ∀ plain, cipher.privateData.readText before binding = .ok plain →
    cipher.privateData.readText after binding = .ok plain

/-- A converted nullable text. -/
def OptionalKept (cipher : PrivateDataCipher) (binding : StorageBinding) :
    Option String → Option String → Prop :=
  Option.Rel (TextKept cipher binding)

/-- A converted JSON column. -/
structure MetadataKept (cipher : PrivateDataCipher) (binding : StorageBinding)
    (before after : Json) : Prop where
  encrypted : legacyMetadata after = false
  converts : ∃ value, convertMetadata cipher after binding = .ok value
  read : ∀ plain, cipher.privateData.readJson before binding = .ok plain →
    cipher.privateData.readJson after binding = .ok plain

/-- A converted URL list, URL by URL under the binding of its index. -/
def UrlsKept (cipher : PrivateDataCipher) (owner resource : String) (before after : List String) :
    Prop :=
  List.Forall₂ (fun (u : String × Nat) a => TextKept cipher ⟨owner, resource, urlField u.2⟩ u.1 a)
    before.zipIdx after

/-- A converted hash: a plain digest has become its fingerprint, and a fingerprint stays. -/
structure HashKept (cipher : PrivateDataCipher) (binding : StorageBinding)
    (before after : Option String) : Prop where
  encrypted : legacyText after = false
  fingerprint : ∀ digest, before = some digest → ¬Maintenance.encrypted digest = true →
    (cipher.lookup digest binding).map some = .ok after
  kept : legacyText before = false → after = before

section Columns

variable {cipher : PrivateDataCipher} {binding : StorageBinding}

theorem encrypted_of_lookup (hcipher : Dependable cipher) {value fingerprint : String}
    (h : cipher.lookup value binding = .ok fingerprint) : encrypted fingerprint = true := by
  unfold encrypted hasCipherPrefix
  rw [hcipher.lookup_prefix h, Bool.true_or]

theorem readText_of_plain {value : String} (h : ¬encrypted value = true) :
    cipher.privateData.readText value binding = .ok value := by
  change Security.readText cipher value binding = .ok value
  unfold Security.readText
  exact if_neg h

theorem readText_of_encrypt (hcipher : Dependable cipher) {value ciphertext : String}
    (h : cipher.privateData.encryptText value binding = .ok ciphertext) :
    cipher.privateData.readText ciphertext binding = .ok value := by
  change cipher.encrypt (.str value) binding = .ok ciphertext at h
  change Security.readText cipher ciphertext binding = .ok value
  unfold Security.readText
  rw [if_pos (hcipher.encrypt_prefix h), hcipher.decrypt_encrypt h]

theorem convertText_kept (hcipher : Dependable cipher) {before after : String}
    (h : convertText cipher before binding = .ok after) : TextKept cipher binding before after := by
  unfold convertText at h
  split at h
  · next hencrypted =>
      obtain ⟨plain, hplain, h⟩ := bind_eq_ok.mp h
      cases h
      exact ⟨hencrypted, ⟨plain, hplain⟩, fun _ hread => hread⟩
  · next hplain =>
      refine ⟨hcipher.encrypt_prefix h, ⟨before, readText_of_encrypt hcipher h⟩, ?_⟩
      intro plain hread
      rw [readText_of_plain hplain] at hread
      cases hread
      exact readText_of_encrypt hcipher h

/-- What has been converted is converted to itself. -/
theorem TextKept.convertText {before after : String} (h : TextKept cipher binding before after) :
    convertText cipher after binding = .ok after := by
  obtain ⟨plain, hplain⟩ := h.reads
  unfold Maintenance.convertText
  rw [if_pos h.encrypted, hplain]
  rfl

theorem convertOptional_kept (hcipher : Dependable cipher) {before after : Option String}
    (h : convertOptional cipher before binding = .ok after) :
    OptionalKept cipher binding before after := by
  cases before with
  | none =>
      cases h
      exact .none
  | some value =>
      obtain ⟨text, htext, rfl⟩ := map_eq_ok.mp h
      exact .some (convertText_kept hcipher htext)

theorem OptionalKept.convertOptional {before after : Option String}
    (h : OptionalKept cipher binding before after) :
    convertOptional cipher after binding = .ok after := by
  cases h with
  | none => rfl
  | some h =>
      unfold Maintenance.convertOptional
      dsimp only
      rw [h.convertText]
      rfl

theorem legacyText_of_encrypted {value : String} (h : encrypted value = true) :
    legacyText (some value) = false := by
  change (!encrypted value) = false
  rw [h, Bool.not_true]

theorem OptionalKept.encrypted {before after : Option String}
    (h : OptionalKept cipher binding before after) : legacyText after = false := by
  cases h with
  | none => rfl
  | some h => exact legacyText_of_encrypted h.encrypted

theorem isEnvelope_encryptJson {value stored : Json}
    (h : cipher.privateData.encryptJson value binding = .ok stored) :
    isEnvelope stored = true ∧ ∃ ciphertext, stored.get? "ciphertext" = some (.str ciphertext) ∧
      cipher.encrypt value binding = .ok ciphertext := by
  change Security.encryptJson cipher value binding = .ok stored at h
  unfold Security.encryptJson at h
  split at h
  · cases h
  · next ciphertext hciphertext =>
      cases h
      refine ⟨?_, ciphertext, ?_, hciphertext⟩
      · simp [isEnvelope, Json.get?]
      · simp [Json.get?]

theorem readJson_of_encrypt (hcipher : Dependable cipher) {value stored : Json}
    (h : cipher.privateData.encryptJson value binding = .ok stored) :
    cipher.privateData.readJson stored binding = .ok value := by
  obtain ⟨henvelope, ciphertext, hget, hencrypt⟩ := isEnvelope_encryptJson h
  change Security.readJson cipher stored binding = .ok value
  unfold Security.readJson
  rw [if_pos henvelope, hget]
  exact hcipher.decrypt_encrypt hencrypt

theorem legacyMetadata_of_envelope {value : Json} (h : isEnvelope value = true) :
    legacyMetadata value = false := by
  unfold legacyMetadata
  split
  · rfl
  · rw [h, Bool.not_true]

/-- The column of a row that is written. -/
theorem convertMetadata_kept (hcipher : Dependable cipher) {before after : Json}
    (h : convertMetadata cipher before binding = .ok after) :
    MetadataKept cipher binding before after := by
  unfold convertMetadata at h
  split at h
  · next henvelope =>
      have hconvert := h
      obtain ⟨plain, hplain, h⟩ := bind_eq_ok.mp h
      cases h
      refine ⟨legacyMetadata_of_envelope henvelope, ⟨before, ?_⟩, fun _ hread => hread⟩
      unfold convertMetadata
      rw [if_pos henvelope]
      exact hconvert
  · next hplain =>
      obtain ⟨henvelope, -⟩ := isEnvelope_encryptJson h
      have hread := readJson_of_encrypt hcipher h
      refine ⟨legacyMetadata_of_envelope henvelope, ⟨after, ?_⟩, ?_⟩
      · unfold convertMetadata
        rw [if_pos henvelope, hread]
        rfl
      · intro plain hbefore
        change Security.readJson cipher before binding = .ok plain at hbefore
        unfold Security.readJson at hbefore
        rw [if_neg hplain] at hbefore
        cases hbefore
        exact hread

/-- The column of a row that is left alone. -/
theorem metadataKept_refl {before after : Json}
    (h : convertMetadata cipher before binding = .ok after) (hlegacy : legacyMetadata before = false) :
    MetadataKept cipher binding before before :=
  ⟨hlegacy, ⟨after, h⟩, fun _ hread => hread⟩

theorem convertUrls_kept (hcipher : Dependable cipher) {owner resource : String}
    {before after : List String} (h : convertUrls cipher owner resource before = .ok after) :
    UrlsKept cipher owner resource before after :=
  (mapM_eq_ok.mp h).imp (fun _ _ hu => convertText_kept hcipher hu)

/-- What has been converted is converted to itself. -/
theorem UrlsKept.convertUrls {owner resource : String} {before after : List String}
    (h : UrlsKept cipher owner resource before after) :
    convertUrls cipher owner resource after = .ok after := by
  have hswap := Forall₂.zipIdx_swap
    (R := fun u i a => TextKept cipher ⟨owner, resource, urlField i⟩ u a) h
  refine mapM_eq_ok.mpr ?_
  have hself : ∀ (urls : List String) (k : ℕ) (olds : List String),
      List.Forall₂ (fun (y : String × ℕ) x =>
        TextKept cipher ⟨owner, resource, urlField y.2⟩ x y.1) (urls.zipIdx k) olds →
      List.Forall₂ (fun (y : String × ℕ) a =>
        Maintenance.convertText cipher y.1 ⟨owner, resource, urlField y.2⟩ = .ok a)
        (urls.zipIdx k) urls := by
    intro urls
    induction urls with
    | nil =>
        intro k olds _
        exact .nil
    | cons url rest ih =>
        intro k olds holds
        rw [List.zipIdx_cons] at holds ⊢
        cases holds with
        | cons hurl hrest => exact .cons hurl.convertText (ih (k + 1) _ hrest)
  exact hself after 0 before hswap

theorem UrlsKept.encrypted {owner resource : String} {before after : List String}
    (h : UrlsKept cipher owner resource before after) : legacyUrls after = false := by
  unfold legacyUrls
  rw [List.any_eq_false]
  intro url hurl
  obtain ⟨u, -, hu⟩ := Forall₂.exists_left h url hurl
  rw [hu.encrypted]
  simp

/-- A hash that is converted stands for what it stood for: the plain digest becomes its fingerprint,
and a fingerprint stays. -/
theorem convertHash_kept (hcipher : Dependable cipher) {before after : Option String}
    (hempty : before ≠ some "") (h : convertHash cipher before binding = .ok after) :
    HashKept cipher binding before after := by
  cases before with
  | none =>
      cases h
      exact ⟨rfl, fun _ hdigest => absurd hdigest (by simp), fun _ => rfl⟩
  | some digest =>
      unfold convertHash at h
      dsimp only at h
      split at h
      · next hplain =>
          obtain ⟨fingerprint, hfingerprint, rfl⟩ := map_eq_ok.mp h
          refine ⟨legacyText_of_encrypted (encrypted_of_lookup hcipher hfingerprint), ?_, ?_⟩
          · rintro _ ⟨rfl⟩ _
            exact h
          · intro hlegacy
            have hnot : (!Maintenance.encrypted digest) = false := hlegacy
            rw [Bool.not_eq_false'] at hnot
            exact absurd hnot hplain.2
      · next hcipher' =>
          cases h
          have hne : digest ≠ "" := fun hd => hempty (by rw [hd])
          have hencrypted : Maintenance.encrypted digest = true := by
            by_contra hplain
            exact hcipher' ⟨hne, hplain⟩
          refine ⟨legacyText_of_encrypted hencrypted, ?_, fun _ => rfl⟩
          rintro _ ⟨rfl⟩ hplain
          exact absurd hencrypted hplain

/-- A hash that is not plain is converted to itself. -/
theorem convertHash_of_encrypted {value : Option String} (h : legacyText value = false) :
    convertHash cipher value binding = .ok value := by
  cases value with
  | none => rfl
  | some digest =>
      have hencrypted : (!Maintenance.encrypted digest) = false := h
      rw [Bool.not_eq_false'] at hencrypted
      unfold convertHash
      dsimp only
      rw [if_neg]
      · rfl
      · rintro ⟨-, hplain⟩
        exact hplain hencrypted

end Columns

end PortRag.Maintenance
