import SecureIam.Db.Session

/-!
How the repositories use a session: the statements as programs, and what
SQLAlchemy raises around them.
-/
namespace SecureIam
open Lib

/-- Code of one request: it runs on one session and raises one of the errors. -/
abbrev App := Program sql Error

namespace App
variable {α : Type}

def issue (o : Stmt) : App o.Res := Program.issue (S := sql) o

def utcNow : App Time := issue .utcNow
def uuid4 : App Uuid := issue .uuid4
def commit : App Unit := issue .commit
def rollback : App Unit := issue .rollback

def select (τ : Table) (q : Tables → List τ.Row) : App (List τ.Row) :=
  issue (.select τ q)

def scalarOneOrNone : List α → App (Option α)
  | [] => pure none
  | [r] => pure (some r)
  | _ => .raise .multipleResultsFound

/-- A text that PostgreSQL takes: it has no NUL. -/
def storable (s : String) : Bool := s.toList.all fun c => c.toNat ≠ 0

/-- A statement whose values PostgreSQL does not take. -/
def requireData (taken : Bool) : App Unit :=
  if taken then pure () else .raise .dataError

theorem requireData_all {P : Stmt → Prop} (taken : Bool) : (requireData taken).All P := by
  rw [requireData]
  split <;> trivial

theorem requireData_bind (taken : Bool) (f : Unit → App α) :
    (requireData taken).bind f = if taken then f () else .raise .dataError := by
  cases taken <;> rfl

/-- `session.add(row)` and the INSERT of the flush. -/
def insert (τ : Table) (draft : τ.Draft) : App τ.Row := do
  match ← issue (.insert τ draft) with
  | some r => pure r
  | none => .raise .integrityError

/-- `session.refresh(row)`. -/
def refresh (τ : Table) (id : Uuid) : App τ.Row := do
  match ← issue (.refresh τ id) with
  | some r => pure r
  | none => .raise .couldNotRefresh

/-- The flush of a changed object, which must match its row. -/
def flushOne (count : Nat) : App Unit :=
  if count = 1 then pure () else .raise .staleDataError

/-- `except IntegrityError: await session.rollback(); raise ...`. -/
def exceptIntegrityError (p : App α) (e : Error) : App α :=
  p.handle fun
    | .integrityError => do
        rollback
        .raise e
    | e => .raise e

end App

end SecureIam
