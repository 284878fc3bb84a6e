import SecureIam.Access.Changes
import SecureIam.Tokens.Reachable

/-!
When a call that adds a row says that the row exists already.
-/
namespace SecureIam
open Lib
variable {env : Environment} {p p' : Calls env} {t t' : Tables} {a : Administration} {k : LockKey}
  {out : Except Error Response}

namespace Administration

/-- The key that an addition asks for. -/
def key : Administration → Option LockKey
  | createRole n _ _ _ => some (.roleName n)
  | assignRole u r o _ => some (.assignment u r o)
  | assignPermissionToRole r p _ => some (.rolePermission r p)
  | createOrganization n _ => some (.organizationName n)
  | addMember u o _ => some (.membershipOf u o)
  | revokeRole _ _ _ _ | removePermissionFromRole _ _ _ | removeMember _ _ _ => none

/-- The error of each addition that says so. -/
def reportsDuplicate : Administration → Error → Bool
  | createRole _ _ _ _, .roleNameAlreadyExists _ => true
  | assignRole _ _ _ _, .roleAlreadyAssigned _ => true
  | assignPermissionToRole _ _ _, .permissionAlreadyAssigned _ => true
  | createOrganization _ _, .organizationNameAlreadyExists _ => true
  | addMember _ _ _, .organizationMembershipAlreadyExists _ => true
  | _, _ => false

/-- A duplicate is reported only if there is one, an error changes nothing, and success
adds one row with the key and one event. -/
structure Honest (a : Administration) (k : LockKey) (t t' : Tables) (out : Except Error Response) :
    Prop where
  duplicate : ∀ e, out = .error e → a.reportsDuplicate e = true → t.hasKey k
  failed : ∀ e, out = .error e → t' = t
  added : ∀ r, out = .ok r → ¬ t.hasKey k ∧ ∃ (row : k.table.Row) (event : AuditLog),
    k ∈ k.table.keys row ∧ event.actorUserId = some a.actor ∧
      t' = (t.insert k.table row).insert .auditLogs event

/-- Only a removal may keep the tables as they are. -/
theorem key_of_kept {id : Uuid} {now : Time} {r : Response} (hv : a.verdict t id now = .keep r) :
    a.key = none := by
  cases a with
  | revokeRole _ _ _ _ | removePermissionFromRole _ _ _ | removeMember _ _ _ => rfl
  | createRole _ _ _ _ | assignRole _ _ _ _ | assignPermissionToRole _ _ _ | createOrganization _ _
  | addMember _ _ _ =>
      simp only [verdict] at hv
      repeat' split at hv
      all_goals cases hv

end Administration

end SecureIam
