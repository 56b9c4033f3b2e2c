import PortRag.Foundation.Base64
import PortRag.Foundation.Except
import PortRag.Foundation.JsonText
import PortRag.Security.PrivateData

set_option autoImplicit false

/-!
# The OpenBao cipher

`OpenBaoPrivateDataCipher` of `rag/security/private_data.py`.  A value whose JSON text is
longer than `_MAX_JSON` is cut into chunks; the envelope holds their ciphertexts and that of a
manifest, which is itself encrypted as a value.  Transit answers each request as it will; it
is asked in turn, and what it has been asked so far is its history.
-/

namespace PortRag.Security

open PortRag.Foundation

/-- `bytes`. -/
abbrev Bytes := List UInt8

/-- `value.encode()`. -/
def utf8 (value : String) : Bytes := value.toByteArray.data.toList

/-- `_MAX_JSON`. -/
def maxJson : Nat := 262144

/-- `_MAX_VALUE`. -/
def maxValue : Nat := 32 * 1024 * 1024

/-! ## Bindings -/

/-- A part of a binding that `associated_data` refuses. -/
def invalidPart (value : String) : Bool :=
  value = "" || 256 < value.length || strip value ≠ value ||
    value.toList.any (fun c => c.toNat < 32 || c.toNat = 127)

/-- The text that `associated_data` encodes. -/
def StorageBinding.text (binding : StorageBinding) : String :=
  String.ofList (listText quote ["port/private-data/v1".toList, binding.ownerId.toList,
    binding.resourceId.toList, binding.field.toList])

/-- `StorageBinding.associated_data`. -/
def StorageBinding.associatedData (binding : StorageBinding) : Except Exc String :=
  if invalidPart binding.ownerId || invalidPart binding.resourceId || invalidPart binding.field then
    .error (.valueError "Private-data storage binding is invalid")
  else .ok (String.ofList (b64encode (utf8 binding.text)))

/-- `StorageBinding.part`. -/
def StorageBinding.part (binding : StorageBinding) (name : String) : StorageBinding :=
  { binding with field := binding.field ++ ":" ++ name }

/-- `f"chunk:{index}"`. -/
def chunkName (index : Nat) : String := "chunk:" ++ toString index

/-! ## Transit -/

/-- A request to encrypt. -/
structure Request where
  plaintext : Bytes
  associatedData : String
  deriving DecidableEq

/-- Transit behind its HTTP interface: what it answers after the encryptions requested so
far. -/
structure Transit where
  encrypt : List Request → Request → Except Exc String
  decrypt : List Request → String → String → Except Exc Bytes

/-- The library functions of the cipher: `json.dumps(...).encode()` of a value and
`json.loads(raw.decode("utf-8"))`, `json.dumps` and `json.loads` of an envelope, and the
hexadecimal SHA-256. -/
structure Encodings where
  dumps : Json → Except Exc Bytes
  loads : Bytes → Except Exc Json
  dumpEnvelope : String → List String → String
  loadEnvelope : String → Except Exc Json
  sha256 : Bytes → String

/-- The requests to Transit so far, and the calls of `encrypt` that made them. -/
structure History where
  requests : List Request
  calls : List (Json × StorageBinding)

/-- `[0-9]`. -/
def isDigit (c : Char) : Bool := '0' ≤ c && c ≤ '9'

/-- `[A-Za-z0-9+/]`. -/
def isBase64 (c : Char) : Bool :=
  ('A' ≤ c && c ≤ 'Z') || ('a' ≤ c && c ≤ 'z') || isDigit c || c = '+' || c = '/'

/-- Whether `base64.b64decode(…, validate=True)` accepts a text: quads of digits, the last of them
perhaps padded to its four characters. After a quad without padding the strict decoder lets any
number of `=` pass; after a padded quad nothing may follow. -/
def b64valid : List Char → Bool
  | [] => true
  | w :: x :: y :: z :: rest =>
      if isBase64 w && isBase64 x && isBase64 y && isBase64 z then
        rest.all (fun c => c = '=') || b64valid rest
      else
        isBase64 w && isBase64 x && ((isBase64 y && z = '=') || (y = '=' && z = '=')) && rest.isEmpty
  | _ => false

example : b64valid "AAAA=====".toList = true ∧ b64valid "AA===".toList = false := by decide

/-- `_CIPHERTEXT.fullmatch`. -/
def isCiphertext (value : String) : Bool :=
  match value.toList with
  | 'v' :: 'a' :: 'u' :: 'l' :: 't' :: ':' :: 'v' :: first :: rest =>
      match rest.dropWhile isDigit with
      | ':' :: payload =>
          let padding := payload.dropWhile isBase64
          ('1' ≤ first && first ≤ '9') && padding.length < payload.length &&
            (padding = [] || padding = ['='] || padding = ['=', '='])
      | _ => false
  | _ => false

/-- `_transit("encrypt", …)`. -/
def transitEncrypt (service : Transit) (raw : Bytes) (binding : StorageBinding) (h : History) :
    Except Exc String × History :=
  match binding.associatedData with
  | .error e => (.error e, h)
  | .ok associated =>
      let h' := { h with requests := h.requests ++ [⟨raw, associated⟩] }
      match service.encrypt h.requests ⟨raw, associated⟩ with
      | .ok ciphertext =>
          if isCiphertext ciphertext then (.ok ciphertext, h')
          else (.error .privateDataUnavailable, h')
      | .error _ => (.error .privateDataUnavailable, h')

/-- `_transit("decrypt", …)`. -/
def transitDecrypt (service : Transit) (h : History) (value : Json) (binding : StorageBinding) :
    Except Exc Bytes :=
  match value with
  | .str ciphertext =>
      if isCiphertext ciphertext then
        match binding.associatedData with
        | .error e => .error e
        | .ok associated =>
            match service.decrypt h.requests ciphertext associated with
            | .ok raw => if maxJson < raw.length then .error .privateDataUnavailable else .ok raw
            | .error _ => .error .privateDataUnavailable
      else .error .privateDataUnavailable
  | _ => .error .privateDataUnavailable

/-! ## Encryption -/

/-- `raw[index : index + 65536]` over the chunks. -/
def slices (raw : Bytes) : List Bytes :=
  (List.range ((raw.length + 65535) / 65536)).map (fun i => (raw.drop (i * 65536)).take 65536)

/-- The manifest of a large value. -/
def manifestOf (lib : Encodings) (raw : Bytes) : Json :=
  .obj [("bytes", .num raw.length), ("count", .num (slices raw).length),
    ("sha256", .str (lib.sha256 raw))]

/-- The chunks of a large value, each under its part of the binding. -/
def encryptChunks (service : Transit) (binding : StorageBinding) :
    List (Bytes × Nat) → History → Except Exc (List String) × History
  | [], h => (.ok [], h)
  | (chunk, index) :: rest, h =>
      match transitEncrypt service chunk (binding.part (chunkName index)) h with
      | (.error e, h') => (.error e, h')
      | (.ok ciphertext, h') =>
          match encryptChunks service binding rest h' with
          | (.error e, h'') => (.error e, h'')
          | (.ok ciphertexts, h'') => (.ok (ciphertext :: ciphertexts), h'')

/-- `encrypt`, at most `depth` calls deep. -/
def encrypt (lib : Encodings) (service : Transit) :
    Nat → Json → StorageBinding → History → Except Exc String × History
  | 0, _, _, h => (.error (.other "maximum recursion depth exceeded"), h)
  | depth + 1, value, binding, h =>
      let h := { h with calls := h.calls ++ [(value, binding)] }
      match lib.dumps value with
      | .error e => (.error e, h)
      | .ok raw =>
          if maxValue < raw.length then
            (.error (.valueError "Private-data value exceeds the size limit"), h)
          else if raw.length ≤ maxJson then transitEncrypt service raw binding h
          else
            match encryptChunks service binding (slices raw).zipIdx h with
            | (.error e, h') => (.error e, h')
            | (.ok chunks, h') =>
                match encrypt lib service depth (manifestOf lib raw) (binding.part "manifest") h' with
                | (.error e, h'') => (.error e, h'')
                | (.ok manifest, h'') => (.ok (largePrefix ++ lib.dumpEnvelope manifest chunks), h'')

/-! ## Decryption -/

/-- `value[name]`. -/
def item (value : Json) (name : String) : Except Exc Json :=
  match value.get? name with
  | some found => .ok found
  | none => .error (.other name)

/-- A value on which string methods are called. -/
def asText : Json → Except Exc String
  | .str text => .ok text
  | _ => .error (.other "object has no attribute 'startswith'")

/-- The integer that a value is for Python, where it is one. -/
def intValue : Option Json → Option Int
  | some (.num q) => if q.den = 1 then some q.num else none
  | some (.bool b) => some (if b then 1 else 0)
  | _ => none

/-- The check of a manifest against the number of chunks; the length it announces. -/
def manifestBytes (manifest : Json) (count : Nat) : Except Exc Nat :=
  match intValue (manifest.get? "bytes") with
  | some bytes =>
      if 0 ≤ bytes ∧ bytes ≤ maxValue ∧ intValue (manifest.get? "count") = some (count : Int) ∧
          (count : Int) = (bytes + 65535) / 65536 then .ok bytes.toNat
      else .error .privateDataUnavailable
  | none => .error .privateDataUnavailable

/-- The check of the joined chunks against their manifest. -/
def matchesManifest (lib : Encodings) (manifest : Json) (bytes : Nat) (raw : Bytes) : Bool :=
  raw.length = bytes &&
    match manifest.get? "sha256" with
    | some (.str digest) => lib.sha256 raw = digest
    | _ => false

/-- `decrypt`, at most `depth` calls deep. -/
def decrypt (lib : Encodings) (service : Transit) (h : History) :
    Nat → String → StorageBinding → Except Exc Json
  | 0, _, _ => .error (.other "maximum recursion depth exceeded")
  | depth + 1, value, binding =>
      if startsWith value largePrefix then do
        let envelope ← lib.loadEnvelope (String.ofList (value.toList.drop largePrefix.toList.length))
        let inner ← item envelope "manifest"
        let text ← asText inner
        let manifest ← decrypt lib service h depth text (binding.part "manifest")
        match ← item envelope "chunks" with
        | .arr chunks =>
            let bytes ← manifestBytes manifest chunks.length
            let parts ← chunks.zipIdx.mapM
              (fun c => transitDecrypt service h c.1 (binding.part (chunkName c.2)))
            if matchesManifest lib manifest bytes parts.flatten then lib.loads parts.flatten
            else .error .privateDataUnavailable
        | _ => .error .privateDataUnavailable
      else do
        let raw ← transitDecrypt service h (.str value) binding
        lib.loads raw

end PortRag.Security
