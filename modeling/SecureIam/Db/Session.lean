import SecureIam.Core.Environment
import SecureIam.Db.Schema
import SecureIam.Lib.Interleaving

/-!
The statements of the application and what each of them does, atomically, to the
database and to the session that issues it.

A session carries its uncommitted writes and the identity map of SQLAlchemy: a
SELECT of a row that is already mapped returns the mapped object as it is, an
ORM-enabled UPDATE copies its SET columns onto the matching objects whether or
not it changed a row, and only `refresh` reloads one. The map matters for the two
tables with columns that change.
-/
namespace SecureIam
open Lib

/-- A row as an INSERT states it: the server draws the id and reads the time. -/
structure Table.Draft (τ : Table) where
  row : Uuid → Time → τ.Row
  drawn : ∀ u now id, .primary τ id ∈ τ.keys (row u now) → id = u

/-- A row of `get_members_for_organization`. -/
structure Member where
  userId : Uuid
  email : String
  joinedAt : Time
deriving DecidableEq, Repr

inductive Stmt where
  | utcNow
  | uuid4
  | tokenUrlsafe
  | hashPassword (password : String)
  | select (τ : Table) (q : Tables → List τ.Row)
  | selectMembers (q : Tables → List Member) (order : List Member → List Member)
  | selectAuditLogs (q : Tables → List AuditLog) (order : List AuditLog → List AuditLog)
  | countAuditLogs (q : Tables → List AuditLog)
  | refresh (τ : Table) (id : Uuid)
  | insert (τ : Table) (draft : τ.Draft)
  | updateLastLoginAt (id : Uuid) (t : Time)
  | updateIsActive (id : Uuid) (active : Bool)
  | revokeIfActive (id : Uuid) (t : Time)
  | updateRevokedAt (id : Uuid) (t : Time)
  | updateReplacedBy (id child : Uuid)
  | deleteRolePermission (roleId permissionId : Uuid)
  | deleteUserRole (id : Uuid)
  | deleteMembership (id : Uuid)
  | commit
  | rollback

/-- Row counts are `Nat`; `none` of a checked write is an `IntegrityError`. -/
@[reducible] def Stmt.Res : Stmt → Type
  | utcNow => Time
  | uuid4 => Uuid
  | tokenUrlsafe | hashPassword _ => String
  | select τ _ => List τ.Row
  | selectMembers _ _ => List Member
  | selectAuditLogs _ _ => List AuditLog
  | countAuditLogs _ => Nat
  | refresh τ _ | insert τ _ => Option τ.Row
  | updateLastLoginAt _ _ | updateIsActive _ _ | revokeIfActive _ _ | updateRevokedAt _ _ => Nat
  | updateReplacedBy _ _ => Option Nat
  | deleteRolePermission _ _ | deleteUserRole _ | deleteMembership _ => Nat
  | commit | rollback => Unit

abbrev sql : Signature := ⟨Stmt, Stmt.Res⟩

structure Session where
  began : Option Nat := none
  pending : List Write := []
  users : Uuid → Option User := fun _ => none
  refreshTokens : Uuid → Option RefreshToken := fun _ => none

namespace Session

/-- The tables as the session sees them. -/
def view (l : Session) (g : Database) : Tables := Store.view (T := tableStore) l.pending g.state

/-- The first statement after a commit or a rollback begins a transaction. -/
def touch (l : Session) (n : Nat) : Session := { l with began := l.began.or (some n) }

/-- `now()` of PostgreSQL: the time at which the transaction began. -/
def now (l : Session) (env : Environment) (n : Nat) : Time := env.clock (l.began.getD n)

def push (l : Session) (w : Write) : Session := { l with pending := l.pending ++ [w] }

/-- The mapped object of a row, or a new one. -/
def object (l : Session) : (τ : Table) → τ.Row → τ.Row
  | .users, r => (l.users r.id).getD r
  | .refreshTokens, r => (l.refreshTokens r.id).getD r
  | .roles, r | .permissions, r | .rolePermissions, r | .userRoles, r | .organizations, r
  | .memberships, r | .auditLogs, r => r

/-- Map the rows that are not mapped yet. -/
def load (l : Session) : (τ : Table) → List τ.Row → Session
  | .users, rs => { l with users := fun id => (l.users id).or (rs.find? (·.id = id)) }
  | .refreshTokens, rs =>
      { l with refreshTokens := fun id => (l.refreshTokens id).or (rs.find? (·.id = id)) }
  | .roles, _ | .permissions, _ | .rolePermissions, _ | .userRoles, _ | .organizations, _
  | .memberships, _ | .auditLogs, _ => l

/-- Overwrite the mapped object of a row. -/
def reload (l : Session) : (τ : Table) → τ.Row → Session
  | .users, r => { l with users := fun id => if id = r.id then some r else l.users id }
  | .refreshTokens, r =>
      { l with refreshTokens := fun id => if id = r.id then some r else l.refreshTokens id }
  | .roles, _ | .permissions, _ | .rolePermissions, _ | .userRoles, _ | .organizations, _
  | .memberships, _ | .auditLogs, _ => l

def amendUser (l : Session) (id : Uuid) (f : User → User) : Session :=
  { l with users := fun u => if u = id then (l.users u).map f else l.users u }

def amendToken (l : Session) (id : Uuid) (f : RefreshToken → RefreshToken) : Session :=
  { l with refreshTokens :=
    fun u => if u = id then (l.refreshTokens u).map f else l.refreshTokens u }

end Session

/-- A write of one row that was found in the session's view, or of none. -/
def writeRow (i : Nat) (found : Option Write) (g : Database) (l : Session) :
    Option (Nat × Database × Session) :=
  match found with
  | none => some (0, g, l)
  | some w => (g.write i w).map fun g' => (1, g', l.push w)

/-- `UPDATE`s by primary key. -/
def updateWhere (τ : Table) (p : τ.Row → Bool) (w : Write) (t : Tables) : Option Write :=
  if (t.rows τ).any p then some w else none

def exec (env : Environment) (n i : Nat) : (o : Stmt) → Database → Session →
    Option (o.Res × Database × Session)
  | .utcNow, g, l => some (env.clock n, g, l)
  | .uuid4, g, l => some (env.uuid n, g, l)
  | .tokenUrlsafe, g, l => some (env.token n, g, l)
  | .hashPassword p, g, l => some (env.hashPassword n p, g, l)
  | .select τ q, g, l =>
      let rows := q (l.view g)
      some (rows.map (l.object τ), g, (l.touch n).load τ rows)
  | .selectMembers q order, g, l => some (order (env.scan n (q (l.view g))), g, l.touch n)
  | .selectAuditLogs q order, g, l => some (order (env.scan n (q (l.view g))), g, l.touch n)
  | .countAuditLogs q, g, l => some ((q (l.view g)).length, g, l.touch n)
  | .refresh τ id, g, l =>
      match ((l.view g).rows τ).find? (.primary τ id ∈ τ.keys ·) with
      | none => some (none, g, l.touch n)
      | some r => some (some r, g, (l.touch n).reload τ r)
  | .insert τ draft, g, l =>
      let r := draft.row (env.uuid n) (l.now env n)
      (g.write i (.insert τ r)).map fun g' =>
        if (Write.insert τ r).Ok (l.view g) then
          (some r, g', ((l.touch n).push (.insert τ r)).reload τ r)
        else (none, g, l.touch n)
  | .updateLastLoginAt id t, g, l =>
      writeRow i (updateWhere .users (·.id = id) (.setLastLoginAt id t) (l.view g)) g
        ((l.touch n).amendUser id fun u => { u with lastLoginAt := some t })
  | .updateIsActive id active, g, l =>
      writeRow i (updateWhere .users (·.id = id) (.setIsActive id active) (l.view g)) g (l.touch n)
  | .revokeIfActive id t, g, l =>
      writeRow i
        (updateWhere .refreshTokens (fun r => r.id = id ∧ r.revokedAt = none) (.setRevokedAt id t)
          (l.view g)) g
        ((l.touch n).amendToken id fun r =>
          if r.revokedAt = none then { r with revokedAt := some t } else r)
  | .updateRevokedAt id t, g, l =>
      writeRow i (updateWhere .refreshTokens (·.id = id) (.setRevokedAt id t) (l.view g)) g
        ((l.touch n).amendToken id fun r => { r with revokedAt := some t })
  | .updateReplacedBy id child, g, l =>
      if (Write.setReplacedBy id child).Ok (l.view g) then
        (writeRow i (updateWhere .refreshTokens (·.id = id) (.setReplacedBy id child) (l.view g)) g
          ((l.touch n).amendToken id fun r => { r with replacedBy := some child })).map
          fun (c, g', l') => (some c, g', l')
      else some (none, g, l.touch n)
  | .deleteRolePermission roleId permissionId, g, l =>
      writeRow i (((l.view g).rolePermissions.find? fun r =>
        r.roleId = roleId ∧ r.permissionId = permissionId).map .deleteRolePermission) g (l.touch n)
  | .deleteUserRole id, g, l =>
      writeRow i (((l.view g).userRoles.find? (·.id = id)).map .deleteUserRole) g (l.touch n)
  | .deleteMembership id, g, l =>
      writeRow i (((l.view g).memberships.find? (·.id = id)).map .deleteMembership) g (l.touch n)
  | .commit, g, l => some ((), g.commit i l.pending, { l with began := none, pending := [] })
  | .rollback, g, _ => some ((), g.rollback i, {})

@[reducible] def machine (env : Environment) : Machine sql where
  Shared := Database
  Local := Session
  start := {}
  exec := exec env

end SecureIam
