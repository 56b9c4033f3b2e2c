import PortRag.Http.Creations
import PortRag.Knowledge.Summaries
import PortRag.Foundation.Trace
import Mathlib.Logic.Function.Basic

set_option autoImplicit false

/-!
# The handler of `POST /knowledge-revisions`

`create_revision` of `rag/http/knowledge_revisions.py`, turn by turn: a turn is one call of the
admission check or of the repository, and other requests run between two turns.
-/

namespace PortRag.Http

open PortRag.Foundation PortRag.Db PortRag.Security PortRag.Knowledge

/-- `CreateKnowledgeRevisionRequest` with what the handler meets on the way: the user of the
capability, or the detail of the 401, and the cipher, clock and identifiers of `create`. -/
structure RevisionRequest where
  userId : Uuid
  revisionId : Uuid
  documentIds : Option (List Uuid)
  authorized : Except String String
  pd : PrivateData
  uuid4 : Nat → Uuid
  now : Time

/-- How far a request is.  A request that has its answer is answered with 201 and a record, or
refused. -/
inductive RevisionStage where
  | received
  | admitted
  | found (existing : KnowledgeRevisionRecord)
  | missing
  | created (revision : KnowledgeRevisionRecord)
  | answered (answer : Except Refusal KnowledgeRevisionRecord)

namespace RevisionRequest

/-- `repository.create` of this request. -/
def create (r : RevisionRequest) (db : Database) : Outcome KnowledgeRevisionRecord :=
  Knowledge.create r.pd r.uuid4 r.revisionId r.now db r.userId r.documentIds

/-- The check of the capability. -/
def verify (r : RevisionRequest) : Except Refusal Unit :=
  match r.authorized with
  | .error detail => .error (.http 401 detail)
  | .ok authorizedUserId =>
      if authorizedUserId ≠ r.userId.str then .error (.http 401 "Invalid retrieval capability")
      else .ok ()

/-- A call of `assert_active`: `next`, or the end. -/
def assertActive (r : RevisionRequest) (db : Database) (next : RevisionStage) : RevisionStage :=
  match Security.assertActive db r.userId with
  | .error e => .answered (.error (.raised e))
  | .ok _ => next

/-- The `except` clause around `repository.create`. -/
def refused : Exc → Refusal
  | .knowledgeRevisionNotFound message => .http 409 message
  | e => .raised e

/-- One turn of the handler. -/
def turn (r : RevisionRequest) (db : Database) : RevisionStage → RevisionStage × Database
  | .received =>
      match r.verify with
      | .error refusal => (.answered (.error refusal), db)
      | .ok _ => (r.assertActive db .admitted, db)
  | .admitted =>
      match Knowledge.get db r.revisionId r.userId with
      | .error e => (.answered (.error (.raised e)), db)
      | .ok (some existing) => (.found existing, db)
      | .ok none => (.missing, db)
  | .found existing => (r.assertActive db (.answered (.ok existing)), db)
  | .missing =>
      let created := r.create db
      match created.result with
      | .error e => (.answered (.error (refused e)), created.db)
      | .ok revision => (.created revision, created.db)
  | .created revision => (r.assertActive db (.answered (.ok revision)), db)
  | .answered answer => (.answered answer, db)

end RevisionRequest

/-- A number of requests on one database. -/
structure Posting where
  db : Database
  stage : Nat → RevisionStage

/-- One turn of request `i`. -/
def postTurn (requests : List RevisionRequest) (i : Nat) (s : Posting) : Posting :=
  match requests[i]? with
  | none => s
  | some r =>
      let turned := r.turn s.db (s.stage i)
      ⟨turned.2, Function.update s.stage i turned.1⟩

/-- All requests have just arrived. -/
def posted (db : Database) : Posting := ⟨db, fun _ => .received⟩

/-- The turns of these requests. -/
def PostStep (requests : List RevisionRequest) (s : Posting) (i : Nat) (_ : Unit) (s' : Posting) :
    Prop :=
  postTurn requests i s = s'

/-- A recorded turn of the requests. -/
abbrev PostRecord := Step Posting Nat Unit

end PortRag.Http
