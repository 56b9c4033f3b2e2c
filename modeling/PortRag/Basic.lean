import Mathlib.Algebra.GroupWithZero.Nat
import Mathlib.Data.Rat.Defs
import Mathlib.Order.Fin.Basic

set_option autoImplicit false

/-!
# The values the service handles

Identifiers, clock readings, JSON values and the exceptions its Python code raises.
-/

namespace PortRag

/-- A `uuid.UUID`: a 128-bit integer, ordered as PostgreSQL orders the type. -/
abbrev Uuid := Fin (2 ^ 128)

instance uuidNeZero : NeZero (2 ^ 128) := ⟨by decide⟩

instance uuidLawfulBEq : LawfulBEq Uuid := inferInstance

namespace Uuid

/-- Hexadecimal digit `i` of the 32 digits of a UUID, counted from the left. -/
def hexDigit (u : Uuid) (i : Nat) : Char := Nat.digitChar (u.val / 16 ^ (31 - i) % 16)

/-- Digits `start`, …, `start + n - 1`. -/
def hexRange (u : Uuid) (start n : Nat) : List Char :=
  (List.range n).map (fun i => u.hexDigit (start + i))

/-- `str(uuid)`: the canonical lower-case form in groups of 8, 4, 4, 4 and 12 digits. -/
def str (u : Uuid) : String :=
  String.ofList (u.hexRange 0 8 ++ '-' :: u.hexRange 8 4 ++ '-' :: u.hexRange 12 4
    ++ '-' :: u.hexRange 16 4 ++ '-' :: u.hexRange 20 12)

end Uuid

/-- A `datetime` in UTC, in microseconds since the epoch. -/
abbrev Time := Int

/-- `timedelta(hours=h)` in microseconds. -/
def hours (h : Int) : Int := h * 3600 * 1000000

/-- `timedelta(minutes=m)` in microseconds. -/
def minutes (m : Int) : Int := m * 60 * 1000000

/-- An embedding: the values of a `vector(1536)` column, whose components are `float4`.  The
client hands on vectors that the column holds exactly, so its rounding does nothing and is left out;
so are its check of the dimension, which raises and stores nothing, and the range of the `int4`
columns of sequence numbers. -/
abbrev Embedding := List Rat

/-- A JSON value as Python holds it. -/
inductive Json where
  | null
  | bool (value : Bool)
  | num (value : Rat)
  | str (value : String)
  | arr (items : List Json)
  | obj (members : List (String × Json))
  deriving Inhabited

namespace Json

/-- `value.get(name)` of a dictionary; `none` for every other value. -/
def get? : Json → String → Option Json
  | .obj members, name => (members.find? (fun m => m.1 = name)).map (·.2)
  | _, _ => none

/-- A `dict`. -/
def IsDict (value : Json) : Prop := ∃ members, value = .obj members

end Json

/-- `value.startswith(start)`. -/
def startsWith (value start : String) : Bool := start.toList.isPrefixOf value.toList

/-- `value[:n]`. -/
def truncate (value : String) (n : Nat) : String := String.ofList (value.toList.take n)

/-- `character.isspace()` of Python's `str`. -/
def isSpace (c : Char) : Bool :=
  let n := c.toNat
  (9 ≤ n && n ≤ 13) || (28 ≤ n && n ≤ 32) || n = 0x85 || n = 0xa0 || n = 0x1680
    || (0x2000 ≤ n && n ≤ 0x200a) || n = 0x2028 || n = 0x2029 || n = 0x202f || n = 0x205f
    || n = 0x3000

/-- `value.strip()`. -/
def strip (value : String) : String :=
  String.ofList ((value.toList.dropWhile isSpace).reverse.dropWhile isSpace).reverse

/-- The exceptions the modelled code raises or catches by type. -/
inductive Exc where
  | ownerDataErased
  | privateDataUnavailable
  | retryableIngest (reason : String)
  | reindexFailed (message : String)
  | duplicateKnowledgeKey
  | knowledgeRevisionNotFound (message : String)
  | syncConflict (message : String)
  | webpageFetch (message : String)
  | embedding (message : String)
  | timeout
  | valueError (message : String)
  /-- `IntegrityError`: the constraint name as the driver shows it under `orig.diag` and
  under `orig.__cause__`. -/
  | integrityError (diag cause : Option String)
  | database (message : String)
  | other (message : String)
  | cancelled
  deriving DecidableEq, Inhabited

namespace Exc

/-- `str(exc)`. -/
def message : Exc → String
  | .ownerDataErased => "RAG_OWNER_DATA_ERASED"
  | .privateDataUnavailable => "Private-data encryption service is unavailable"
  | .retryableIngest reason => reason
  | .reindexFailed m => m
  | .duplicateKnowledgeKey => ""
  | .knowledgeRevisionNotFound m => m
  | .syncConflict m => m
  | .webpageFetch m => m
  | .embedding m => m
  | .timeout => ""
  | .valueError m => m
  | .integrityError _ _ => ""
  | .database m => m
  | .other m => m
  | .cancelled => ""

/-- `isinstance(exc, ValueError)`. -/
def isValueError : Exc → Bool
  | .duplicateKnowledgeKey => true
  | .knowledgeRevisionNotFound _ => true
  | .syncConflict _ => true
  | .webpageFetch _ => true
  | .valueError _ => true
  | _ => false

end Exc

end PortRag
