import PortRag.Basic

set_option autoImplicit false

/-!
# Private data: the storage boundary

`rag/security/private_data.py`.  The encryption service stands behind the protocol
`PrivateDataCipher`; everything the service stores or reads goes through the four
helpers of `PrivateData`: `cipher.encrypt` of a text, `encrypt_json`, `read_text` and
`read_json`.

A `PrivateDataCipher` here is what the service answers during one operation, so calls may
fail in one operation and succeed in the next.  What stays the same over all of them is
which ciphertext opens to which value under which binding: an `Opens`, the key material.
-/

namespace PortRag.Security

/-- `StorageBinding`: what a ciphertext is bound to. -/
structure StorageBinding where
  ownerId : String
  resourceId : String
  field : String
  deriving DecidableEq, Inhabited

/-- The protocol `PrivateDataCipher`. -/
structure PrivateDataCipher where
  encrypt : Json → StorageBinding → Except Exc String
  decrypt : String → StorageBinding → Except Exc Json
  lookup : String → StorageBinding → Except Exc String

/-- `_LARGE_PREFIX`. -/
def largePrefix : String := "port-openbao:v1:"

/-- `value.startswith(("vault:", _LARGE_PREFIX))`: how a ciphertext is told from legacy
plaintext. -/
def hasCipherPrefix (value : String) : Bool :=
  startsWith value "vault:" || startsWith value largePrefix

/-- `read_text` of a value that is not null. -/
def readText (cipher : PrivateDataCipher) (value : String) (binding : StorageBinding) :
    Except Exc String :=
  if hasCipherPrefix value then
    match cipher.decrypt value binding with
    | .error e => .error e
    | .ok (.str result) => .ok result
    | .ok _ => .error .privateDataUnavailable
  else .ok value

/-- `encrypt_json`. -/
def encryptJson (cipher : PrivateDataCipher) (value : Json) (binding : StorageBinding) :
    Except Exc Json :=
  match cipher.encrypt value binding with
  | .error e => .error e
  | .ok ciphertext => .ok (.obj [("storageEncryption", .str "openbao-transit/v1"),
      ("ciphertext", .str ciphertext)])

/-- The test of `read_json` for an encrypted value. -/
def isEnvelope (value : Json) : Bool :=
  match value.get? "storageEncryption" with
  | some (.str version) => version = "openbao-transit/v1"
  | _ => false

/-- `read_json`. -/
def readJson (cipher : PrivateDataCipher) (value : Json) (binding : StorageBinding) :
    Except Exc Json :=
  if isEnvelope value then
    match value.get? "ciphertext" with
    | some (.str ciphertext) => cipher.decrypt ciphertext binding
    | some _ => .error (.other "ciphertext is not a string")
    | none => .error (.other "'ciphertext'")
  else .ok value

/-- The helpers through which the repositories write and read private columns. -/
structure PrivateData where
  encryptText : String → StorageBinding → Except Exc String
  encryptJson : Json → StorageBinding → Except Exc Json
  readText : String → StorageBinding → Except Exc String
  readJson : Json → StorageBinding → Except Exc Json

/-- The helpers over a cipher, as the repositories call them. -/
def PrivateDataCipher.privateData (cipher : PrivateDataCipher) : PrivateData where
  encryptText := fun value binding => cipher.encrypt (.str value) binding
  encryptJson := Security.encryptJson cipher
  readText := Security.readText cipher
  readJson := Security.readJson cipher

/-- `read_text` of a nullable column. -/
def PrivateData.readOptional (pd : PrivateData) (value : Option String)
    (binding : StorageBinding) : Except Exc (Option String) :=
  match value with
  | none => .ok none
  | some text => (pd.readText text binding).map some

/-! ## What a stored value opens to -/

/-- Which value a ciphertext opens to under a binding. -/
abbrev Opens := String → StorageBinding → Option Json

/-- A cipher works with the key material `opens`: what it encrypts carries the prefix of a
ciphertext and opens to the value under the same binding, and what it decrypts is what
the ciphertext opens to.  Any call may also fail; a decryption of what opens fails only
with `PrivateDataUnavailable`. -/
structure PrivateDataCipher.Uses (cipher : PrivateDataCipher) (opens : Opens) : Prop where
  encrypt_prefix : ∀ {value binding ciphertext},
    cipher.encrypt value binding = .ok ciphertext → hasCipherPrefix ciphertext = true
  encrypt_opens : ∀ {value binding ciphertext},
    cipher.encrypt value binding = .ok ciphertext → opens ciphertext binding = some value
  decrypt_opens : ∀ {value binding ciphertext},
    cipher.decrypt ciphertext binding = .ok value → opens ciphertext binding = some value
  decrypt_error : ∀ {value binding ciphertext e}, opens ciphertext binding = some value →
    cipher.decrypt ciphertext binding = .error e → e = .privateDataUnavailable

/-- The decryption service is up: every ciphertext that opens is decrypted. -/
def PrivateDataCipher.Available (cipher : PrivateDataCipher) (opens : Opens) : Prop :=
  ∀ {value binding ciphertext},
    opens ciphertext binding = some value → cipher.decrypt ciphertext binding = .ok value

/-- The stored text `stored` stands for `plain` under `binding`. -/
def TextStands (opens : Opens) (stored : String) (binding : StorageBinding) (plain : String) :
    Prop :=
  if hasCipherPrefix stored then opens stored binding = some (.str plain) else stored = plain

/-- The stored JSON value `stored` stands for `plain` under `binding`. -/
def JsonStands (opens : Opens) (stored : Json) (binding : StorageBinding) (plain : Json) : Prop :=
  if isEnvelope stored then
    ∃ ciphertext, stored.get? "ciphertext" = some (.str ciphertext) ∧
      opens ciphertext binding = some plain
  else stored = plain

section Laws

variable {opens : Opens} {cipher : PrivateDataCipher}

/-- A stored text stands for at most one plaintext. -/
theorem TextStands.unique {stored plain other : String} {binding : StorageBinding}
    (h : TextStands opens stored binding plain) (h' : TextStands opens stored binding other) :
    plain = other := by
  unfold TextStands at h h'
  split at h
  · next hp =>
      rw [if_pos hp, h] at h'
      cases h'
      rfl
  · next hp =>
      rw [if_neg hp] at h'
      exact h.symm.trans h'

theorem JsonStands.unique {stored plain other : Json} {binding : StorageBinding}
    (h : JsonStands opens stored binding plain) (h' : JsonStands opens stored binding other) :
    plain = other := by
  unfold JsonStands at h h'
  split at h
  · next hp =>
      rw [if_pos hp] at h'
      obtain ⟨c, hc, ho⟩ := h
      obtain ⟨c', hc', ho'⟩ := h'
      rw [hc] at hc'
      cases hc'
      rw [ho] at ho'
      exact Option.some.inj ho'
  · next hp =>
      rw [if_neg hp] at h'
      exact h.symm.trans h'

theorem encryptText_stands (huses : cipher.Uses opens) {plain stored : String}
    {binding : StorageBinding} (h : cipher.privateData.encryptText plain binding = .ok stored) :
    TextStands opens stored binding plain := by
  rw [TextStands, if_pos (huses.encrypt_prefix h)]
  exact huses.encrypt_opens h

theorem encryptJson_stands (huses : cipher.Uses opens) {plain stored : Json}
    {binding : StorageBinding} (h : cipher.privateData.encryptJson plain binding = .ok stored) :
    JsonStands opens stored binding plain := by
  change Security.encryptJson cipher plain binding = .ok stored at h
  unfold Security.encryptJson at h
  split at h
  · cases h
  · next ciphertext hc =>
      cases h
      have henvelope : isEnvelope (.obj [("storageEncryption", .str "openbao-transit/v1"),
          ("ciphertext", .str ciphertext)]) = true := by
        simp [isEnvelope, Json.get?]
      rw [JsonStands, if_pos henvelope]
      exact ⟨ciphertext, by simp [Json.get?], huses.encrypt_opens hc⟩

/-- What `read_text` returns is what the stored text stands for. -/
theorem readText_stands (huses : cipher.Uses opens) {plain stored : String}
    {binding : StorageBinding} (h : cipher.privateData.readText stored binding = .ok plain) :
    TextStands opens stored binding plain := by
  change Security.readText cipher stored binding = .ok plain at h
  unfold Security.readText at h
  split at h
  · next hp =>
      rw [TextStands, if_pos hp]
      split at h
      · cases h
      · next hd =>
          cases h
          exact huses.decrypt_opens hd
      · cases h
  · next hp =>
      rw [TextStands, if_neg hp]
      exact Except.ok.inj h

/-- What `read_json` returns is what the stored value stands for. -/
theorem readJson_stands (huses : cipher.Uses opens) {plain stored : Json}
    {binding : StorageBinding} (h : cipher.privateData.readJson stored binding = .ok plain) :
    JsonStands opens stored binding plain := by
  change Security.readJson cipher stored binding = .ok plain at h
  unfold Security.readJson at h
  split at h
  · next hp =>
      rw [JsonStands, if_pos hp]
      split at h
      · next ciphertext hc => exact ⟨ciphertext, hc, huses.decrypt_opens h⟩
      · cases h
      · cases h
  · next hp =>
      rw [JsonStands, if_neg hp]
      exact Except.ok.inj h

/-- A read of a stored text that stands for something fails only for want of the service. -/
theorem readText_error (huses : cipher.Uses opens) {plain stored : String}
    {binding : StorageBinding} (hs : TextStands opens stored binding plain) {e : Exc}
    (h : cipher.privateData.readText stored binding = .error e) : e = .privateDataUnavailable := by
  change Security.readText cipher stored binding = .error e at h
  unfold Security.readText at h
  split at h
  · next hp =>
      rw [TextStands, if_pos hp] at hs
      split at h
      · next hd =>
          cases h
          exact huses.decrypt_error hs hd
      · cases h
      · cases h
        rfl
  · cases h

end Laws

/-! ## A cipher in the clear

The laws have a model: a cipher that writes the value out in the clear, behind the field
and the last two digits of owner and resource. -/

/-- What a ciphertext under this binding starts with. -/
def clearTag (binding : StorageBinding) : List Char :=
  ['v', 'a', 'u', 'l', 't', ':', 'v', '1', ':'] ++ binding.ownerId.toList.drop 34 ++
    binding.resourceId.toList.drop 34 ++ binding.field.toList

/-- Texts and the empty object; other values are refused. -/
def clearEncode : Json → Option (List Char)
  | .str text => some ('s' :: text.toList)
  | .obj [] => some ['o']
  | _ => none

/-- The value of a text that `clearEncode` wrote. -/
def clearDecode : List Char → Option Json
  | 's' :: text => some (.str (String.ofList text))
  | ['o'] => some (.obj [])
  | _ => none

/-- The key material of the cipher in the clear. -/
def clearOpens : Opens := fun ciphertext binding =>
  if (clearTag binding).isPrefixOf ciphertext.toList then
    clearDecode (ciphertext.toList.drop (clearTag binding).length)
  else none

/-- The cipher in the clear. -/
def clearCipher : PrivateDataCipher where
  encrypt := fun value binding =>
    match clearEncode value with
    | some text => .ok (String.ofList (clearTag binding ++ text))
    | none => .error .privateDataUnavailable
  decrypt := fun ciphertext binding =>
    match clearOpens ciphertext binding with
    | some value => .ok value
    | none => .error .privateDataUnavailable
  lookup := fun value _ => .ok ("vault:v1:" ++ value)

theorem clearDecode_encode {value : Json} {text : List Char} (h : clearEncode value = some text) :
    clearDecode text = some value := by
  unfold clearEncode at h
  split at h
  · cases h
    simp [clearDecode]
  · cases h
    rfl
  · cases h

theorem clearCipher_encrypt {value : Json} {binding : StorageBinding} {ciphertext : String}
    (h : clearCipher.encrypt value binding = .ok ciphertext) :
    ∃ text, clearEncode value = some text ∧
      ciphertext = String.ofList (clearTag binding ++ text) := by
  unfold clearCipher at h
  dsimp only at h
  split at h
  · next text htext =>
      cases h
      exact ⟨text, htext, rfl⟩
  · cases h

/-- A ciphertext in the clear is longer than its tag. -/
theorem clearCipher_encrypt_ne {value : Json} {binding : StorageBinding} {ciphertext : String}
    (h : clearCipher.encrypt value binding = .ok ciphertext) : ciphertext ≠ "vault:v1:" := by
  obtain ⟨text, htext, rfl⟩ := clearCipher_encrypt h
  have hne : text ≠ [] := by
    rintro rfl
    cases clearDecode_encode htext
  intro hshort
  have hlength := congrArg (fun c => c.toList.length) hshort
  simp only [String.toList_ofList, clearTag, List.length_append, List.length_cons] at hlength
  have hpos := List.length_pos_iff.mpr hne
  have hnine : "vault:v1:".toList.length = 9 := by decide
  omega

theorem hasCipherPrefix_clearTag (binding : StorageBinding) (text : List Char) :
    hasCipherPrefix (String.ofList (clearTag binding ++ text)) = true := by
  have hvault : "vault:".toList = ['v', 'a', 'u', 'l', 't', ':'] := String.toList_ofList
  have hstart : startsWith (String.ofList (clearTag binding ++ text)) "vault:" = true := by
    unfold startsWith
    simp only [hvault, String.toList_ofList]
    rfl
  unfold hasCipherPrefix
  rw [hstart, Bool.true_or]

theorem clearCipher_uses : clearCipher.Uses clearOpens where
  encrypt_prefix := by
    intro value binding ciphertext h
    obtain ⟨text, -, rfl⟩ := clearCipher_encrypt h
    exact hasCipherPrefix_clearTag binding text
  encrypt_opens := by
    intro value binding ciphertext h
    obtain ⟨text, htext, rfl⟩ := clearCipher_encrypt h
    have htag : (clearTag binding).isPrefixOf (clearTag binding ++ text) = true := by
      simp
    rw [clearOpens, String.toList_ofList, if_pos htag, List.drop_left]
    exact clearDecode_encode htext
  decrypt_opens := by
    intro value binding ciphertext h
    unfold clearCipher at h
    dsimp only at h
    split at h
    · next hopens =>
        cases h
        exact hopens
    · cases h
  decrypt_error := by
    intro value binding ciphertext e hopens h
    unfold clearCipher at h
    dsimp only at h
    rw [hopens] at h
    cases h

theorem clearCipher_available : clearCipher.Available clearOpens := by
  intro value binding ciphertext h
  unfold clearCipher
  dsimp only
  rw [h]

end PortRag.Security
