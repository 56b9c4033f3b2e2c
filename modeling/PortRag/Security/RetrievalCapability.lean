import PortRag.Foundation.Base64
import PortRag.Foundation.Except
import PortRag.Security.OpenBao

set_option autoImplicit false

/-!
# Retrieval capabilities

`RetrievalCapabilityVerifier` of `rag/security/retrieval_capability.py`.  A capability is
accepted through a chain of checks that raise exceptions of many types; the last handler turns
those that it knows into one rejection.  A signed payload can still reach an exception that it
does not know.
-/

namespace PortRag.Security

open PortRag.Foundation

/-! ## The verifier -/

/-- The exceptions on the way: those that the last handler catches by their type, and others. -/
inductive CapabilityError where
  | invalidRetrievalCapability
  | keyError
  | typeError
  /-- `ValueError` and its subclasses `binascii.Error`, `JSONDecodeError` and `UnicodeError`. -/
  | valueError
  | attributeError
  | other (type : String)
  deriving DecidableEq, Inhabited

namespace CapabilityError

/-- The exceptions of the two `except` clauses, which both end in a rejection. -/
def caught : CapabilityError → Bool
  | invalidRetrievalCapability => true
  | keyError => true
  | typeError => true
  | valueError => true
  | attributeError => false
  | other _ => false

end CapabilityError

/-- What `json.loads` returns; integers are told from floats. -/
inductive Claim where
  | null
  | bool (value : Bool)
  | int (value : Int)
  | float (text : String)
  | str (value : String)
  | arr (items : List Claim)
  | obj (items : List (String × Claim))
  deriving Inhabited

/-- What the verifier calls: HMAC-SHA256 under its secret, `json.loads`, the parse of a string
by `uuid.UUID`, and the clock in whole seconds. -/
structure VerifierEnv where
  hmac : Bytes → Bytes
  loads : Bytes → Except CapabilityError Claim
  uuid? : String → Option Uuid
  now : Int

/-- `value.translate(bytes.maketrans(b"-_", b"+/"))`. -/
def fromUrlSafe (c : Char) : Char :=
  if c = '-' then '+' else if c = '_' then '/' else c

/-- `_decode_base64url`. -/
def decodeBase64url (value : String) : Except CapabilityError Bytes :=
  if value = "" then .error .invalidRetrievalCapability
  else
    let padded := value.toList ++ List.replicate ((4 - value.toList.length % 4) % 4) '='
    let text := padded.map fromUrlSafe
    if b64valid text then .ok (b64decode text) else .error .valueError

/-- `value.encode("ascii")`. -/
def encodeAscii (value : String) : Except CapabilityError Bytes :=
  if value.toList.all (fun c => c.toNat < 128) then .ok (utf8 value) else .error .valueError

/-- `uuid.UUID(value)`. -/
def parseUuid (env : VerifierEnv) : Claim → Except CapabilityError Uuid
  | .null => .error .typeError
  | .str value =>
      match env.uuid? value with
      | some id => .ok id
      | none => .error .valueError
  | _ => .error .attributeError

/-- `payload[name]`. -/
def claimOf (items : List (String × Claim)) (name : String) : Except CapabilityError Claim :=
  match items.find? (fun item => item.1 = name) with
  | some item => .ok item.2
  | none => .error .keyError

/-- The keys of a payload. -/
def capabilityKeys : List String := ["userId", "knowledgeRevisionId", "sessionId", "exp"]

/-- `set(payload) != {…}`, negated. -/
def hasCapabilityKeys (items : List (String × Claim)) : Bool :=
  items.all (fun item => item.1 ∈ capabilityKeys) &&
    capabilityKeys.all (fun key => items.any (fun item => item.1 = key))

/-- The last check of `verify`, negated. -/
def authorizes (env : VerifierEnv) (session expires : Claim) (signed requested : Uuid) : Bool :=
  match session, expires with
  | .str id, .int exp => strip id ≠ "" && env.now < exp && signed = requested
  | _, _ => false

/-- The checks of a payload whose signature has matched. -/
def readClaims (env : VerifierEnv) (requested : String) (payload : Claim) :
    Except CapabilityError String :=
  match payload with
  | .obj items =>
      if !hasCapabilityKeys items then .error .invalidRetrievalCapability
      else do
        let userId ← parseUuid env (← claimOf items "userId")
        let signed ← parseUuid env (← claimOf items "knowledgeRevisionId")
        let wanted ← parseUuid env (.str requested)
        let session ← claimOf items "sessionId"
        let expires ← claimOf items "exp"
        if authorizes env session expires signed wanted then pure userId.str
        else .error .invalidRetrievalCapability
  | _ => .error .invalidRetrievalCapability

/-- The body of `verify` up to the comparison of the signatures: the payload's bytes. -/
def checkSignature (env : VerifierEnv) (token : String) : Except CapabilityError Bytes :=
  match token.toList.splitOn '.' with
  | [payload, signature] => do
      let supplied ← decodeBase64url (String.ofList signature)
      let encoded ← encodeAscii (String.ofList payload)
      if supplied ≠ env.hmac encoded then .error .invalidRetrievalCapability
      else decodeBase64url (String.ofList payload)
  | _ => .error .valueError

/-- The body of `verify`. -/
def verifyBody (env : VerifierEnv) (token requested : String) : Except CapabilityError String := do
  let bytes ← checkSignature env token
  let payload ← env.loads bytes
  readClaims env requested payload

/-- `RetrievalCapabilityVerifier.verify`. -/
def verify (env : VerifierEnv) (token requested : String) : Except CapabilityError String :=
  match verifyBody env token requested with
  | .ok userId => .ok userId
  | .error e => if e.caught then .error .invalidRetrievalCapability else .error e

/-! ## Valid capabilities -/

/-- The token is a payload and its signature, joined by the only dot, and the signature decodes to
the HMAC of the payload. -/
def Signed (env : VerifierEnv) (token : String) (bytes : Bytes) : Prop :=
  ∃ payload signature, '.' ∉ payload.toList ∧ '.' ∉ signature.toList ∧
    token = payload ++ "." ++ signature ∧
    decodeBase64url signature = .ok (env.hmac (utf8 payload)) ∧
    decodeBase64url payload = .ok bytes

/-- The payload is an object with exactly the four keys. -/
def PayloadOf (env : VerifierEnv) (bytes : Bytes) (user revision session exp : Claim) : Prop :=
  ∃ items, env.loads bytes = .ok (.obj items) ∧
    (∀ key, key ∈ items.map Prod.fst ↔ key ∈ capabilityKeys) ∧
    claimOf items "userId" = .ok user ∧ claimOf items "knowledgeRevisionId" = .ok revision ∧
    claimOf items "sessionId" = .ok session ∧ claimOf items "exp" = .ok exp

/-- The token authorizes this user for the requested revision. -/
def Authorizes (env : VerifierEnv) (token requested : String) (u : Uuid) : Prop :=
  ∃ bytes user revision session exp id,
    Signed env token bytes ∧
    PayloadOf env bytes (.str user) (.str revision) (.str session) (.int exp) ∧
    env.uuid? user = some u ∧ env.uuid? revision = some id ∧ env.uuid? requested = some id ∧
    strip session ≠ "" ∧ env.now < exp

/-- The verifier accepts exactly the valid capabilities, and rejects all others. -/
def Classifies (env : VerifierEnv) (token requested : String) : Prop :=
  (∀ answer, verify env token requested = .ok answer ↔
      ∃ u, Authorizes env token requested u ∧ answer = u.str) ∧
    ((∀ u, ¬Authorizes env token requested u) →
      verify env token requested = .error .invalidRetrievalCapability)

/-- A value that `uuid.UUID` takes for neither missing nor a string. -/
def Claim.odd : Claim → Bool
  | .null => false
  | .str _ => false
  | _ => true

/-- A signed token whose payload `json.loads` gives up on, or which has the four keys but for a
UUID a value that is neither null nor a string. -/
def Escapes (env : VerifierEnv) (token : String) : Prop :=
  ∃ bytes, Signed env token bytes ∧
    ((∃ e, env.loads bytes = .error e ∧ e.caught = false) ∨
      ∃ user revision session exp, PayloadOf env bytes user revision session exp ∧
        (user.odd = true ∨
          (∃ id u, user = .str id ∧ env.uuid? id = some u) ∧ revision.odd = true))

/-! ## The signature -/

/-- No part of a split text has the separator in it. -/
theorem not_mem_of_mem_splitOn (c : Char) : ∀ (text part : List Char),
    part ∈ text.splitOn c → c ∉ part
  | [], part, h => by
      rw [List.splitOn_nil, List.mem_singleton] at h
      rw [h]
      exact List.not_mem_nil
  | x :: rest, part, h => by
      have ih := not_mem_of_mem_splitOn c rest
      rw [List.splitOn_cons_eq_if_modifyHead] at h
      split at h
      · rcases List.mem_cons.mp h with rfl | h
        · exact List.not_mem_nil
        · exact ih part h
      · next hx =>
          obtain ⟨first, others, hsplit⟩ := List.exists_cons_of_ne_nil (List.splitOn_ne_nil c rest)
          rw [hsplit] at h ih
          rcases List.mem_cons.mp h with rfl | h
          · have hfirst := ih first List.mem_cons_self
            simp only [beq_iff_eq] at hx
            simp [hfirst, Ne.symm hx]
          · exact ih part (List.mem_cons_of_mem _ h)

/-- A text in two parts. -/
theorem splitOn_eq_pair {token : String} {payload signature : List Char} :
    token.toList.splitOn '.' = [payload, signature] ↔
      '.' ∉ payload ∧ '.' ∉ signature ∧
        token = String.ofList payload ++ "." ++ String.ofList signature := by
  have hjoin : token = String.ofList payload ++ "." ++ String.ofList signature ↔
      token.toList = ['.'].intercalate [payload, signature] := by
    rw [← String.toList_inj]
    simp [List.intercalate]
  constructor
  · intro h
    have hparts := not_mem_of_mem_splitOn '.' token.toList
    rw [h] at hparts
    refine ⟨hparts payload (by simp), hparts signature (by simp), hjoin.mpr ?_⟩
    rw [← h, List.intercalate_splitOn]
  · rintro ⟨hpayload, hsignature, htoken⟩
    rw [hjoin.mp htoken]
    refine List.splitOn_intercalate '.' ?_ (by simp)
    simp [hpayload, hsignature]

/-- Text that the decoder accepts is ASCII: its alphabet is, and so is the padding.  The induction
follows the decoder, four characters at a time. -/
theorem b64valid_ascii : ∀ (text : List Char), b64valid text = true →
    ∀ c ∈ text, c.toNat < 128 := by
  have hdigit : ∀ c, isBase64 c = true → c.toNat < 128 := by
    intro c h
    simp only [isBase64, isDigit, Bool.or_eq_true, Bool.and_eq_true, decide_eq_true_eq,
      Char.le_def, UInt32.le_iff_toNat_le] at h
    have hvals : 'A'.val.toNat = 65 ∧ 'Z'.val.toNat = 90 ∧ 'a'.val.toNat = 97 ∧
        'z'.val.toNat = 122 ∧ '0'.val.toNat = 48 ∧ '9'.val.toNat = 57 := by decide
    obtain ⟨h1, h2, h3, h4, h5, h6⟩ := hvals
    rw [h1, h2, h3, h4, h5, h6] at h
    rcases h with (((h | h) | h) | rfl) | rfl
    · exact Nat.lt_of_le_of_lt h.2 (by omega)
    · exact Nat.lt_of_le_of_lt h.2 (by omega)
    · exact Nat.lt_of_le_of_lt h.2 (by omega)
    · decide
    · decide
  have hpad : '='.toNat < 128 := by decide
  intro text
  induction text using b64valid.induct with
  | case1 => simp
  | case2 w x y z rest hquad ih =>
      intro h
      rw [b64valid, if_pos hquad] at h
      simp only [Bool.and_eq_true] at hquad
      obtain ⟨⟨⟨hw, hx⟩, hy⟩, hz⟩ := hquad
      have hrest : ∀ c ∈ rest, c.toNat < 128 := by
        rcases Bool.or_eq_true _ _ ▸ h with hpads | hr
        · intro c hc
          rw [of_decide_eq_true (List.all_eq_true.mp hpads c hc)]
          exact hpad
        · exact ih hr
      simp only [List.forall_mem_cons]
      exact ⟨hdigit w hw, hdigit x hx, hdigit y hy, hdigit z hz, hrest⟩
  | case3 w x y z rest hquad =>
      intro h
      rw [b64valid, if_neg hquad] at h
      simp only [Bool.and_eq_true, Bool.or_eq_true, decide_eq_true_eq, List.isEmpty_iff] at h
      obtain ⟨⟨⟨hw, hx⟩, hpadded⟩, rfl⟩ := h
      simp only [List.forall_mem_cons, List.not_mem_nil, false_imp_iff, implies_true, and_true]
      rcases hpadded with ⟨hy, rfl⟩ | ⟨rfl, rfl⟩
      · exact ⟨hdigit w hw, hdigit x hx, hdigit y hy, hpad⟩
      · exact ⟨hdigit w hw, hdigit x hx, hpad, hpad⟩
  | case4 text hnil hquad =>
      intro h
      rw [b64valid] at h
      · cases h
      · exact hnil
      · exact hquad

/-- What base64 decodes is an ASCII text. -/
theorem encodeAscii_of_decode {value : String} {bytes : Bytes}
    (h : decodeBase64url value = .ok bytes) : encodeAscii value = .ok (utf8 value) := by
  unfold decodeBase64url at h
  split at h
  · cases h
  · dsimp only at h
    split at h
    · next hvalid =>
        refine if_pos (List.all_eq_true.mpr fun c hc => ?_)
        have hmem := List.mem_map_of_mem (f := fromUrlSafe) (List.mem_append_left
          (List.replicate ((4 - value.toList.length % 4) % 4) '=') hc)
        have hascii := b64valid_ascii _ hvalid _ hmem
        unfold fromUrlSafe at hascii
        split at hascii
        · next hdash =>
            rw [hdash]
            decide
        · split at hascii
          · next hunder =>
              rw [hunder]
              decide
          · simpa using hascii
    · cases h

section Checks

variable {env : VerifierEnv} {token requested : String}

/-- The signature check passes exactly the signed tokens, and hands on the bytes of the payload: two
parts, a signature that decodes to the HMAC of the first one, and a payload that decodes. -/
theorem checkSignature_ok {bytes : Bytes} :
    checkSignature env token = .ok bytes ↔ Signed env token bytes := by
  constructor
  · intro h
    unfold checkSignature at h
    split at h
    · next payload signature hsplit =>
        obtain ⟨hpayload, hsignature, htoken⟩ := splitOn_eq_pair.mp hsplit
        obtain ⟨supplied, hsupplied, h⟩ := bind_eq_ok.mp h
        obtain ⟨encoded, hencoded, h⟩ := bind_eq_ok.mp h
        split at h
        · cases h
        · next hsame =>
            rw [encodeAscii_of_decode h] at hencoded
            obtain rfl := Except.ok.inj hencoded
            refine ⟨String.ofList payload, String.ofList signature, ?_, ?_, htoken, ?_, h⟩
            · rwa [String.toList_ofList]
            · rwa [String.toList_ofList]
            · rw [hsupplied, Classical.not_not.mp hsame]
    · cases h
  · rintro ⟨payload, signature, hpayload, hsignature, htoken, hmac, hdecode⟩
    have hsplit : token.toList.splitOn '.' = [payload.toList, signature.toList] := by
      refine splitOn_eq_pair.mpr ⟨hpayload, hsignature, ?_⟩
      rw [String.ofList_toList, String.ofList_toList, htoken]
    unfold checkSignature
    rw [hsplit]
    dsimp only
    rw [String.ofList_toList, String.ofList_toList, hmac, encodeAscii_of_decode hdecode]
    change (if env.hmac (utf8 payload) ≠ env.hmac (utf8 payload) then _ else _) = _
    rw [if_neg (fun hne => hne rfl), hdecode]

/-- Whatever fails up to the signatures is caught: no token of a stranger escapes the handlers. -/
theorem checkSignature_error {e : CapabilityError} (h : checkSignature env token = .error e) :
    e.caught = true := by
  have hdecode : ∀ value, decodeBase64url value = .error e → e.caught = true := by
    intro value hvalue
    unfold decodeBase64url at hvalue
    split at hvalue
    · cases hvalue
      rfl
    · dsimp only at hvalue
      split at hvalue
      · cases hvalue
      · cases hvalue
        rfl
  unfold checkSignature at h
  split at h
  · rcases bind_eq_error.mp h with h | ⟨_, -, h⟩
    · exact hdecode _ h
    rcases bind_eq_error.mp h with h | ⟨_, -, h⟩
    · unfold encodeAscii at h
      split at h
      · cases h
      · cases h
        rfl
    split at h
    · cases h
      rfl
    · exact hdecode _ h
  · cases h
    rfl

/-! ## The claims -/

theorem mem_keys_iff {items : List (String × Claim)} :
    hasCapabilityKeys items = true ↔ ∀ key, key ∈ items.map Prod.fst ↔ key ∈ capabilityKeys := by
  unfold hasCapabilityKeys
  rw [Bool.and_eq_true, List.all_eq_true, List.all_eq_true]
  constructor
  · rintro ⟨hknown, hpresent⟩ key
    constructor
    · intro hkey
      obtain ⟨item, hitem, rfl⟩ := List.mem_map.mp hkey
      simpa using hknown item hitem
    · intro hkey
      obtain ⟨item, hitem, hname⟩ := List.any_eq_true.mp (hpresent key hkey)
      exact List.mem_map.mpr ⟨item, hitem, by simpa using hname⟩
  · intro h
    refine ⟨fun item hitem => ?_, fun key hkey => ?_⟩
    · simpa using (h item.1).mp (List.mem_map_of_mem hitem)
    · obtain ⟨item, hitem, hname⟩ := List.mem_map.mp ((h key).mpr hkey)
      exact List.any_eq_true.mpr ⟨item, hitem, by simpa using hname⟩

/-- A key of the payload has a claim. -/
theorem claimOf_of_mem {items : List (String × Claim)} {name : String}
    (h : name ∈ items.map Prod.fst) : ∃ claim, claimOf items name = .ok claim := by
  obtain ⟨item, hitem, rfl⟩ := List.mem_map.mp h
  unfold claimOf
  cases hfind : items.find? (fun other => other.1 = item.1) with
  | none => exact absurd (by simp) (List.find?_eq_none.mp hfind item hitem)
  | some found => exact ⟨found.2, rfl⟩

/-- The checks once the four claims are there. -/
theorem readClaims_eq {items : List (String × Claim)} {user revision session exp : Claim}
    (hkeys : hasCapabilityKeys items = true) (hu : claimOf items "userId" = .ok user)
    (hr : claimOf items "knowledgeRevisionId" = .ok revision)
    (hs : claimOf items "sessionId" = .ok session) (hx : claimOf items "exp" = .ok exp) :
    readClaims env requested (.obj items) = (do
      let userId ← parseUuid env user
      let signed ← parseUuid env revision
      let wanted ← parseUuid env (.str requested)
      if authorizes env session exp signed wanted then pure userId.str
      else .error .invalidRetrievalCapability) := by
  unfold readClaims
  dsimp only
  rw [hkeys, hu, hr, hs, hx]
  rfl

/-- What is no object is rejected. -/
theorem isObj_or (requested : String) (payload : Claim) :
    (∃ items, payload = .obj items) ∨
      (readClaims env requested payload = .error .invalidRetrievalCapability ∧
        ∀ items, payload ≠ .obj items) := by
  cases payload with
  | obj items => exact .inl ⟨items, rfl⟩
  | _ => exact .inr ⟨rfl, by simp⟩

/-- A payload with the four keys has the four claims, and any other is rejected. -/
theorem payload_cases (requested : String) (payload : Claim) {bytes : Bytes}
    (hloads : env.loads bytes = .ok payload) :
    (readClaims env requested payload = .error .invalidRetrievalCapability ∧
        ∀ user revision session exp, ¬PayloadOf env bytes user revision session exp) ∨
      ∃ user revision session exp, PayloadOf env bytes user revision session exp ∧
        readClaims env requested payload = (do
          let userId ← parseUuid env user
          let signed ← parseUuid env revision
          let wanted ← parseUuid env (.str requested)
          if authorizes env session exp signed wanted then pure userId.str
          else .error .invalidRetrievalCapability) := by
  rcases @isObj_or env requested payload with ⟨items, rfl⟩ | ⟨hrejected, hother⟩
  · cases hkeys : hasCapabilityKeys items with
    | false =>
        refine .inl ⟨?_, ?_⟩
        · unfold readClaims
          dsimp only
          rw [hkeys]
          rfl
        · rintro user revision session exp ⟨items', hitems', hkeys', -⟩
          cases hloads.symm.trans hitems'
          rw [mem_keys_iff.mpr hkeys'] at hkeys
          cases hkeys
    | true =>
        have hmem := mem_keys_iff.mp hkeys
        obtain ⟨user, hu⟩ := claimOf_of_mem ((hmem "userId").mpr (by decide))
        obtain ⟨revision, hr⟩ := claimOf_of_mem ((hmem "knowledgeRevisionId").mpr (by decide))
        obtain ⟨session, hs⟩ := claimOf_of_mem ((hmem "sessionId").mpr (by decide))
        obtain ⟨exp, hx⟩ := claimOf_of_mem ((hmem "exp").mpr (by decide))
        exact .inr ⟨user, revision, session, exp, ⟨items, hloads, hmem, hu, hr, hs, hx⟩,
          readClaims_eq hkeys hu hr hs hx⟩
  · refine .inl ⟨hrejected, ?_⟩
    rintro user revision session exp ⟨items, hitems, -⟩
    exact hother items (Except.ok.inj (hloads.symm.trans hitems))

theorem parseUuid_ok {claim : Claim} {id : Uuid} :
    parseUuid env claim = .ok id ↔ ∃ value, claim = .str value ∧ env.uuid? value = some id := by
  cases claim with
  | str value =>
      simp only [parseUuid, Claim.str.injEq, exists_eq_left']
      cases env.uuid? value <;> simp
  | _ => simp [parseUuid]

/-- A parse raises what is not caught exactly for a value of another type. -/
theorem parseUuid_error {claim : Claim} :
    (∃ e, parseUuid env claim = .error e ∧ e.caught = false) ↔ claim.odd = true := by
  cases claim with
  | str value =>
      simp only [parseUuid]
      cases env.uuid? value <;> simp [Claim.odd, CapabilityError.caught]
  | _ => simp [parseUuid, Claim.odd, CapabilityError.caught]

theorem authorizes_iff {session exp : Claim} {signed wanted : Uuid} :
    authorizes env session exp signed wanted = true ↔
      (∃ id, session = .str id ∧ strip id ≠ "") ∧ (∃ n, exp = .int n ∧ env.now < n) ∧
        signed = wanted := by
  unfold authorizes
  split
  · next id n =>
      simp only [Bool.and_eq_true, decide_eq_true_eq, Claim.str.injEq, Claim.int.injEq,
        exists_eq_left']
      tauto
  · next hother =>
      constructor
      · intro h
        cases h
      · rintro ⟨⟨id, rfl, -⟩, ⟨n, rfl, -⟩, -⟩
        exact absurd rfl (hother id n rfl)

/-! ## Acceptance -/

/-- The chain of checks accepts exactly what is authorized, and answers with the user of the payload
in canonical form. -/
theorem verifyBody_ok {answer : String} :
    verifyBody env token requested = .ok answer ↔
      ∃ u, Authorizes env token requested u ∧ answer = u.str := by
  constructor
  · intro h
    obtain ⟨bytes, hsigned, h⟩ := bind_eq_ok.mp h
    obtain ⟨payload, hloads, h⟩ := bind_eq_ok.mp h
    rcases payload_cases requested payload hloads with
      ⟨hrejected, -⟩ | ⟨user, revision, session, exp, hpayload, hread⟩
    · rw [hrejected] at h
      cases h
    rw [hread] at h
    obtain ⟨u, hu, hrest⟩ := bind_eq_ok.mp h
    obtain ⟨signed, hr, hrest⟩ := bind_eq_ok.mp hrest
    obtain ⟨wanted, hw, hlast⟩ := bind_eq_ok.mp hrest
    split at hlast
    · next hauthorizes =>
        have hanswer := pure_eq_ok.mp hlast
        obtain ⟨name, rfl, hname⟩ := parseUuid_ok.mp hu
        obtain ⟨frozen, rfl, hfrozen⟩ := parseUuid_ok.mp hr
        obtain ⟨asked, hasked, hwanted⟩ := parseUuid_ok.mp hw
        cases hasked
        obtain ⟨⟨id, rfl, hid⟩, ⟨n, rfl, hn⟩, rfl⟩ := authorizes_iff.mp hauthorizes
        exact ⟨u, ⟨bytes, name, frozen, id, n, signed, checkSignature_ok.mp hsigned, hpayload, hname,
          hfrozen, hwanted, hid, hn⟩, hanswer.symm⟩
    · cases hlast
  · rintro ⟨u, ⟨bytes, user, revision, session, exp, id, hsigned, hpayload, hu, hr, hw, hs, hx⟩,
      rfl⟩
    obtain ⟨items, hloads, hkeys, hcu, hcr, hcs, hcx⟩ := hpayload
    refine bind_eq_ok.mpr ⟨bytes, checkSignature_ok.mpr hsigned, ?_⟩
    refine bind_eq_ok.mpr ⟨.obj items, hloads, ?_⟩
    rw [readClaims_eq (mem_keys_iff.mpr hkeys) hcu hcr hcs hcx]
    refine bind_eq_ok.mpr ⟨u, parseUuid_ok.mpr ⟨user, rfl, hu⟩, ?_⟩
    refine bind_eq_ok.mpr ⟨id, parseUuid_ok.mpr ⟨revision, rfl, hr⟩, ?_⟩
    refine bind_eq_ok.mpr ⟨id, parseUuid_ok.mpr ⟨requested, rfl, hw⟩, ?_⟩
    rw [if_pos (authorizes_iff.mpr ⟨⟨session, rfl, hs⟩, ⟨exp, rfl, hx⟩, rfl⟩)]
    rfl

/-! ## Rejection -/

/-- The claims let an exception through exactly when one of the two parses meets an odd value. -/
theorem claims_escape {user revision session exp : Claim} :
    (∃ e, (do
        let userId ← parseUuid env user
        let signed ← parseUuid env revision
        let wanted ← parseUuid env (.str requested)
        if authorizes env session exp signed wanted then pure userId.str
        else .error .invalidRetrievalCapability : Except CapabilityError String) = .error e ∧
        e.caught = false) ↔
      user.odd = true ∨ (∃ id u, user = .str id ∧ env.uuid? id = some u) ∧ revision.odd = true := by
  constructor
  · rintro ⟨e, h, hcaught⟩
    rcases bind_eq_error.mp h with h | ⟨u, hu, h⟩
    · exact .inl (parseUuid_error.mp ⟨e, h, hcaught⟩)
    rcases bind_eq_error.mp h with h | ⟨signed, -, h⟩
    · obtain ⟨name, hname, huuid⟩ := parseUuid_ok.mp hu
      exact .inr ⟨⟨name, u, hname, huuid⟩, parseUuid_error.mp ⟨e, h, hcaught⟩⟩
    rcases bind_eq_error.mp h with h | ⟨wanted, -, h⟩
    · have hodd := parseUuid_error.mp ⟨e, h, hcaught⟩
      cases hodd
    split at h
    · cases h
    · cases h
      cases hcaught
  · rintro (hodd | ⟨⟨name, u, hname, huuid⟩, hodd⟩)
    · obtain ⟨e, he, hcaught⟩ := (@parseUuid_error env _).mpr hodd
      exact ⟨e, bind_eq_error.mpr (.inl he), hcaught⟩
    · obtain ⟨e, he, hcaught⟩ := (@parseUuid_error env _).mpr hodd
      refine ⟨e, bind_eq_error.mpr (.inr ⟨u, parseUuid_ok.mpr ⟨name, hname, huuid⟩, ?_⟩), hcaught⟩
      exact bind_eq_error.mpr (.inl he)

/-- An exception that is not caught comes from the payload of a signed token. -/
theorem escapes_iff :
    (∃ e, verifyBody env token requested = .error e ∧ e.caught = false) ↔ Escapes env token := by
  constructor
  · rintro ⟨e, h, hcaught⟩
    rcases bind_eq_error.mp h with h | ⟨bytes, hsigned, h⟩
    · rw [checkSignature_error h] at hcaught
      cases hcaught
    refine ⟨bytes, checkSignature_ok.mp hsigned, ?_⟩
    rcases bind_eq_error.mp h with h | ⟨payload, hloads, h⟩
    · exact .inl ⟨e, h, hcaught⟩
    rcases payload_cases requested payload hloads with
      ⟨hrejected, -⟩ | ⟨user, revision, session, exp, hpayload, hread⟩
    · rw [hrejected] at h
      cases h
      cases hcaught
    · rw [hread] at h
      exact .inr ⟨user, revision, session, exp, hpayload, claims_escape.mp ⟨e, h, hcaught⟩⟩
  · rintro ⟨bytes, hsigned, ⟨e, hloads, hcaught⟩ | ⟨user, revision, session, exp, hpayload, hodd⟩⟩
    · refine ⟨e, bind_eq_error.mpr (.inr ⟨bytes, checkSignature_ok.mpr hsigned, ?_⟩), hcaught⟩
      exact bind_eq_error.mpr (.inl hloads)
    · obtain ⟨items, hloads, hkeys, hcu, hcr, hcs, hcx⟩ := hpayload
      obtain ⟨e, he, hcaught⟩ := (@claims_escape env requested user revision session exp).mpr hodd
      refine ⟨e, bind_eq_error.mpr (.inr ⟨bytes, checkSignature_ok.mpr hsigned, ?_⟩), hcaught⟩
      refine bind_eq_error.mpr (.inr ⟨.obj items, hloads, ?_⟩)
      rw [readClaims_eq (mem_keys_iff.mpr hkeys) hcu hcr hcs hcx]
      exact he

/-- A verification that raises what is not caught does not classify the token. -/
theorem not_classifies_of_escapes (h : Escapes env token) : ¬Classifies env token requested := by
  obtain ⟨e, herror, hcaught⟩ := (@escapes_iff env token requested).mpr h
  have hverify : verify env token requested = .error e := by
    unfold verify
    rw [herror]
    dsimp only
    rw [hcaught]
    rfl
  rintro ⟨haccepts, hrejects⟩
  have hnone : ∀ u, ¬Authorizes env token requested u := by
    intro u hu
    have hok := (haccepts u.str).mpr ⟨u, hu, rfl⟩
    rw [hverify] at hok
    cases hok
  have hinvalid := hrejects hnone
  rw [hverify] at hinvalid
  cases hinvalid
  cases hcaught

end Checks

/-- For every token, requested revision and clock: the verifier accepts the valid capabilities and
no others, and rejects all others with `InvalidRetrievalCapability`, if and only if the payload of
the token does not escape the handlers.  Only a payload that is correctly signed can escape, and
only by a value that is neither null nor a text where an identifier is read, or by a text that
`json.loads` gives up on. -/
theorem verify_classifies_iff (env : VerifierEnv) (token requested : String) :
    Classifies env token requested ↔ ¬Escapes env token := by
  constructor
  · exact fun h hescapes => not_classifies_of_escapes hescapes h
  · intro hcaught
    refine ⟨fun answer => ?_, fun hnone => ?_⟩
    · rw [← verifyBody_ok]
      unfold verify
      cases verifyBody env token requested with
      | ok userId => simp
      | error e => cases he : e.caught <;> simp [he]
    · unfold verify
      cases hbody : verifyBody env token requested with
      | ok userId =>
          obtain ⟨u, hu, -⟩ := verifyBody_ok.mp hbody
          exact absurd hu (hnone u)
      | error e =>
          cases he : e.caught with
          | true => simp [he]
          | false => exact absurd (escapes_iff.mp ⟨e, hbody, he⟩) hcaught

/-- A verifier whose key gives every payload the signature of one zero byte, for a payload with a
number in place of the user. -/
def oddEnv : VerifierEnv where
  hmac := fun _ => [0]
  loads := fun _ => .ok (.obj [("userId", .int 1), ("knowledgeRevisionId", .str "r"),
    ("sessionId", .str "s"), ("exp", .int 2)])
  uuid? := fun _ => none
  now := 1

/-- The number raises an `AttributeError` that no handler catches. -/
theorem odd_claim_escapes :
    verify oddEnv "AA.AA" "r" = .error .attributeError ∧ ¬Classifies oddEnv "AA.AA" "r" := by
  refine ⟨by decide +kernel, ?_⟩
  rintro ⟨-, hrejects⟩
  have hnone : ∀ u, ¬Authorizes oddEnv "AA.AA" "r" u := by
    rintro u ⟨_, _, _, _, _, _, -, -, huuid, -⟩
    cases huuid
  have hverify : verify oddEnv "AA.AA" "r" = .error .attributeError := by decide +kernel
  have hinvalid := hrejects hnone
  rw [hverify] at hinvalid
  cases hinvalid

end PortRag.Security
