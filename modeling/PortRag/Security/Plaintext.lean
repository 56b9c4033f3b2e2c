import PortRag.Security.PrivateData
import PortRag.Foundation.Simulation

set_option autoImplicit false

/-!
# Private data in the clear

What a stored value stands for as a function of it, and the helpers of a store that
encrypts nothing.  Each helper of an encrypting store imitates the plain one, up to the
failures of the encryption service.
-/

namespace PortRag.Security

open PortRag.Foundation

/-- What a stored text stands for. -/
def revealText (opens : Opens) (stored : String) (binding : StorageBinding) : String :=
  if hasCipherPrefix stored then
    match opens stored binding with
    | some (.str plain) => plain
    | _ => stored
  else stored

/-- What a stored JSON value stands for. -/
def revealJson (opens : Opens) (stored : Json) (binding : StorageBinding) : Json :=
  if isEnvelope stored then
    match stored.get? "ciphertext" with
    | some (.str ciphertext) => (opens ciphertext binding).getD stored
    | _ => stored
  else stored

/-- The helpers of a store in the clear. -/
def PrivateData.plain : PrivateData where
  encryptText := fun value _ => .ok value
  encryptJson := fun value _ => .ok value
  readText := fun value _ => .ok value
  readJson := fun value _ => .ok value

/-- A failure of the service to decrypt what opens. -/
def PrivateDataCipher.ReadFails (cipher : PrivateDataCipher) (opens : Opens) (e : Exc) : Prop :=
  ∃ value binding ciphertext, opens ciphertext binding = some value ∧
    cipher.decrypt ciphertext binding = .error e

/-- A failure of the service to encrypt. -/
def PrivateDataCipher.WriteFails (cipher : PrivateDataCipher) (e : Exc) : Prop :=
  ∃ value binding, cipher.encrypt value binding = .error e

/-- A failure of the service. -/
def PrivateDataCipher.Fails (cipher : PrivateDataCipher) (opens : Opens) (e : Exc) : Prop :=
  cipher.ReadFails opens e ∨ cipher.WriteFails e

section Laws

variable {opens : Opens} {cipher : PrivateDataCipher} {binding : StorageBinding}

theorem revealText_of_stands {stored plain : String} (h : TextStands opens stored binding plain) :
    revealText opens stored binding = plain := by
  unfold TextStands at h
  unfold revealText
  split at h
  · next hp => rw [if_pos hp, h]
  · next hp => rw [if_neg hp, h]

theorem revealJson_of_stands {stored plain : Json} (h : JsonStands opens stored binding plain) :
    revealJson opens stored binding = plain := by
  unfold JsonStands at h
  unfold revealJson
  split at h
  · next hp =>
      obtain ⟨ciphertext, hc, ho⟩ := h
      rw [if_pos hp, hc]
      simp [ho]
  · next hp => rw [if_neg hp, h]

/-- What stands for something stands for what it reveals. -/
theorem TextStands.reveal {stored plain : String} (h : TextStands opens stored binding plain) :
    TextStands opens stored binding (revealText opens stored binding) := by
  rw [revealText_of_stands h]
  exact h

theorem JsonStands.reveal {stored plain : Json} (h : JsonStands opens stored binding plain) :
    JsonStands opens stored binding (revealJson opens stored binding) := by
  rw [revealJson_of_stands h]
  exact h

/-- `read_text` imitates the plain read of the plaintext. -/
theorem readText_follows (huses : cipher.Uses opens) {stored plain : String}
    (h : TextStands opens stored binding plain) :
    Follows (cipher.ReadFails opens) Eq (cipher.privateData.readText stored binding)
      (PrivateData.plain.readText plain binding) := by
  constructor
  · intro read hread
    exact ⟨plain, rfl, (readText_stands huses hread).unique h⟩
  · intro e he
    change Security.readText cipher stored binding = .error e at he
    unfold Security.readText at he
    split at he
    · next hp =>
        rw [TextStands, if_pos hp] at h
        split at he
        · next hd =>
            cases he
            exact .inl ⟨_, _, _, h, hd⟩
        · cases he
        · next value hvalue hd =>
            rw [huses.decrypt_opens hd] at h
            cases h
            exact absurd rfl (hvalue plain)
    · cases he

/-- `read_json` imitates the plain read of the plaintext. -/
theorem readJson_follows (huses : cipher.Uses opens) {stored plain : Json}
    (h : JsonStands opens stored binding plain) :
    Follows (cipher.ReadFails opens) Eq (cipher.privateData.readJson stored binding)
      (PrivateData.plain.readJson plain binding) := by
  constructor
  · intro read hread
    exact ⟨plain, rfl, (readJson_stands huses hread).unique h⟩
  · intro e he
    change Security.readJson cipher stored binding = .error e at he
    unfold Security.readJson at he
    split at he
    · next hp =>
        rw [JsonStands, if_pos hp] at h
        obtain ⟨ciphertext, hc, ho⟩ := h
        rw [hc] at he
        exact .inl ⟨_, _, _, ho, he⟩
    · cases he

/-- An encryption stores something that stands for the text. -/
theorem encryptText_follows (huses : cipher.Uses opens) (plain : String) :
    Follows cipher.WriteFails (fun stored p => p = plain ∧ TextStands opens stored binding plain)
      (cipher.privateData.encryptText plain binding)
      (PrivateData.plain.encryptText plain binding) := by
  constructor
  · intro stored hstored
    exact ⟨plain, rfl, rfl, encryptText_stands huses hstored⟩
  · intro e he
    exact .inl ⟨_, _, he⟩

theorem encryptJson_follows (huses : cipher.Uses opens) (plain : Json) :
    Follows cipher.WriteFails (fun stored p => p = plain ∧ JsonStands opens stored binding plain)
      (cipher.privateData.encryptJson plain binding)
      (PrivateData.plain.encryptJson plain binding) := by
  constructor
  · intro stored hstored
    exact ⟨plain, rfl, rfl, encryptJson_stands huses hstored⟩
  · intro e he
    change Security.encryptJson cipher plain binding = .error e at he
    unfold Security.encryptJson at he
    split at he
    · next hc =>
        cases he
        exact .inl ⟨_, _, hc⟩
    · cases he

/-- A failure to decrypt is a failure of the service. -/
theorem follows_of_read {α β : Type} {R : α → β → Prop} {x : Except Exc α} {y : Except Exc β}
    (h : Follows (cipher.ReadFails opens) R x y) : Follows (cipher.Fails opens) R x y :=
  h.mono (fun _ he => .inl he) (fun _ _ hab => hab)

/-- A failure to encrypt is a failure of the service. -/
theorem follows_of_write {α β : Type} {R : α → β → Prop} {x : Except Exc α} {y : Except Exc β}
    (h : Follows cipher.WriteFails R x y) : Follows (cipher.Fails opens) R x y :=
  h.mono (fun _ he => .inr he) (fun _ _ hab => hab)

end Laws

end PortRag.Security
