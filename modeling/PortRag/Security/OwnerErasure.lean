import PortRag.Db.Statements

set_option autoImplicit false

/-!
# Transactions and owner admission

`rag/security/owner_erasure.py` over one transaction of the database.  A transaction is a
function from the committed database to either an exception, which rolls it back, or its
result and the new database.
-/

namespace PortRag.Security

open PortRag.Db

/-- What a call of a repository leaves: its result and the committed database. -/
structure Outcome (α : Type) where
  result : Except Exc α
  db : Database

namespace Outcome

/-- A transaction whose result is computed before its commit. -/
def ofTransaction {α : Type} (db : Database) : Except Exc (α × Database) → Outcome α
  | .error e => ⟨.error e, db⟩
  | .ok (a, db') => ⟨.ok a, db'⟩

/-- A transaction after whose commit `read` computes the result; the commit stands even when
`read` raises. -/
def afterCommit {α β : Type} (db : Database) (t : Except Exc (β × Database))
    (read : β → Except Exc α) : Outcome α :=
  match t with
  | .error e => ⟨.error e, db⟩
  | .ok (b, db') => ⟨read b, db'⟩

/-- A transaction rolls back or commits. -/
theorem ofTransaction_cases {α : Type} (db : Database) (t : Except Exc (α × Database)) :
    (∃ e, t = .error e ∧ ofTransaction db t = ⟨.error e, db⟩) ∨
      ∃ a db', t = .ok (a, db') ∧ ofTransaction db t = ⟨.ok a, db'⟩ := by
  cases t with
  | error e => exact .inl ⟨e, rfl, rfl⟩
  | ok p => exact .inr ⟨p.1, p.2, rfl, rfl⟩

theorem afterCommit_cases {α β : Type} (db : Database) (t : Except Exc (β × Database))
    (read : β → Except Exc α) :
    (∃ e, t = .error e ∧ afterCommit db t read = ⟨.error e, db⟩) ∨
      ∃ b db', t = .ok (b, db') ∧ afterCommit db t read = ⟨read b, db'⟩ := by
  cases t with
  | error e => exact .inl ⟨e, rfl, rfl⟩
  | ok p => exact .inr ⟨p.1, p.2, rfl, rfl⟩

/-- A transaction whose call raises has raised itself. -/
theorem error_of_result {α : Type} {db : Database} {t : Except Exc (α × Database)} {e : Exc}
    (h : (ofTransaction db t).result = .error e) : t = .error e := by
  rcases ofTransaction_cases db t with ⟨e', ht, ho⟩ | ⟨a, db', -, ho⟩
  · rw [ho] at h
    rw [ht, Except.error.inj h]
  · rw [ho] at h
    cases h

/-- A transaction whose call returns has committed what the call leaves. -/
theorem ok_of_result {α : Type} {db : Database} {t : Except Exc (α × Database)} {a : α}
    (h : (ofTransaction db t).result = .ok a) : t = .ok (a, (ofTransaction db t).db) := by
  rcases ofTransaction_cases db t with ⟨e', -, ho⟩ | ⟨a', db', ht, ho⟩
  · rw [ho] at h
    cases h
  · rw [ho] at h ⊢
    rw [ht, Except.ok.inj h]

/-- The database after a transaction is the old one, or the one that it committed. -/
theorem db_of_ofTransaction {α : Type} {db : Database} {t : Except Exc (α × Database)}
    {o : Outcome α} (h : ofTransaction db t = o) :
    o.db = db ∨ ∃ a db', t = .ok (a, db') ∧ o.db = db' := by
  subst h
  rcases ofTransaction_cases db t with ⟨e, -, ho⟩ | ⟨a, db', ht, ho⟩
  · rw [ho]
    exact .inl rfl
  · rw [ho]
    exact .inr ⟨a, db', ht, rfl⟩

theorem db_of_afterCommit {α β : Type} {db : Database} {t : Except Exc (β × Database)}
    {read : β → Except Exc α} {o : Outcome α} (h : afterCommit db t read = o) :
    o.db = db ∨ ∃ b db', t = .ok (b, db') ∧ o.db = db' := by
  subst h
  rcases afterCommit_cases db t read with ⟨e, -, ho⟩ | ⟨b, db', ht, ho⟩
  · rw [ho]
    exact .inl rfl
  · rw [ho]
    exact .inr ⟨b, db', ht, rfl⟩

end Outcome

/-- `lock_active_owner`: `rag_assert_owner_active` raises SQLSTATE 55000 for a fenced owner.
The advisory lock it takes is held to the end of the transaction. -/
def lockActiveOwner (db : Database) (userId : Uuid) : Except Exc Unit :=
  if userId ∈ db.erasedOwners then .error .ownerDataErased else .ok ()

theorem lockActiveOwner_ok {db : Database} {userId : Uuid} {u : Unit}
    (h : lockActiveOwner db userId = .ok u) : userId ∉ db.erasedOwners := by
  unfold lockActiveOwner at h
  split at h
  · cases h
  · next hn => exact hn

/-- `SqlAlchemyOwnerErasure.assert_active`. -/
def assertActive (db : Database) (userId : Uuid) : Except Exc Unit := lockActiveOwner db userId

/-- `SqlAlchemyOwnerErasure.fence`. -/
def fence (db : Database) (userId : Uuid) : Database := db.fenceOwner userId

/-- `SqlAlchemyOwnerErasure.erase`: `rag_erase_user_data` fences the owner and deletes. -/
def erase (db : Database) (userId : Uuid) : Database := (db.fenceOwner userId).deleteOwner userId

end PortRag.Security
