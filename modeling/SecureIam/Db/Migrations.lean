import SecureIam.Db.Tables

/-!
`app/db/migrations/versions/` from `714a446f6f38` on, which adds organizations: what each
revision's `downgrade()` does to the rows. All the downgrades of one command run in one
transaction, so an error leaves the tables as they were.
-/
namespace SecureIam

namespace PhaseTwo

structure Role where
  id : Uuid
  name : String
  description : Option String
  isSystemRole : Bool
deriving DecidableEq, Repr

structure UserRole where
  id : Uuid
  userId : Uuid
  roleId : Uuid
deriving DecidableEq, Repr

/-- The tables of revision `ca306aad2376`: neither organizations nor audit logs. -/
structure Tables where
  users : List User
  refreshTokens : List RefreshToken
  roles : List Role
  permissions : List Permission
  rolePermissions : List RolePermission
  userRoles : List UserRole
deriving DecidableEq, Repr

end PhaseTwo

namespace Migrations

/-- The columns of `uq_user_roles_user_role`. -/
def assignmentPair (ur : UserRole) : Uuid × Uuid := (ur.userId, ur.roleId)

/-- `ALTER TABLE user_roles ADD CONSTRAINT ... UNIQUE (user_id, role_id)` reads every row. -/
def createUniqueConstraint (t : Tables) : Except Error Unit :=
  if (t.userRoles.map assignmentPair).Nodup then .ok () else .error .integrityError

/-- `op.drop_column('roles', 'organization_id')`. -/
def dropRoleOrganization (role : Role) : PhaseTwo.Role :=
  ⟨role.id, role.name, role.description, role.isSystemRole⟩

/-- `op.drop_column('user_roles', 'organization_id')`. -/
def dropUserRoleOrganization (ur : UserRole) : PhaseTwo.UserRole := ⟨ur.id, ur.userId, ur.roleId⟩

/-- `downgrade()` of `714a446f6f38`. Foreign keys and indexes go first, and the tables of
organizations and memberships last. -/
def downgrade (t : Tables) : Except Error PhaseTwo.Tables := do
  createUniqueConstraint t
  return {
    users := t.users
    refreshTokens := t.refreshTokens
    roles := t.roles.map dropRoleOrganization
    permissions := t.permissions
    rolePermissions := t.rolePermissions
    userRoles := t.userRoles.map dropUserRoleOrganization }

/-- `upgrade()` of `714a446f6f38`: the new columns are NULL in every row. -/
def upgrade (d : PhaseTwo.Tables) : Tables where
  users := d.users
  refreshTokens := d.refreshTokens
  roles := d.roles.map fun role => ⟨role.id, role.name, role.description, role.isSystemRole, none⟩
  permissions := d.permissions
  rolePermissions := d.rolePermissions
  userRoles := d.userRoles.map fun ur => ⟨ur.id, ur.userId, ur.roleId, none⟩

/-- `DELETE`s of a seeded permission and of its mappings to roles. -/
def deletePermission (resource action : String) (t : Tables) : Tables :=
  let seeded := t.permissions.filter fun p => p.resource = resource ∧ p.action = action
  { t with
    rolePermissions := t.rolePermissions.filter (·.permissionId ∉ seeded.map (·.id))
    permissions := t.permissions.filter fun p => ¬ (p.resource = resource ∧ p.action = action) }

/-- The revisions from `714a446f6f38` on, oldest first. -/
inductive Revision where
  | addOrganizations
  | seedOrganizationManage
  | addAuditLogs
  | seedAuditView
deriving DecidableEq, Repr

def downgradeAuditView (t : Tables) : Tables := deletePermission "audit" "view" t

def downgradeAuditLogs (t : Tables) : Tables := { t with auditLogs := [] }

def downgradeOrganizationManage (t : Tables) : Tables := deletePermission "organization" "manage" t

/-- What the downgrades of the revisions after `714a446f6f38` leave to its own. -/
def Revision.undone : Revision → Tables → Tables
  | addOrganizations, t => t
  | seedOrganizationManage, t => downgradeOrganizationManage t
  | addAuditLogs, t => downgradeOrganizationManage (downgradeAuditLogs t)
  | seedAuditView, t => downgradeOrganizationManage (downgradeAuditLogs (downgradeAuditView t))

/-- `alembic downgrade ca306aad2376` at the given revision. -/
def downgradeFrom (head : Revision) (t : Tables) : Except Error PhaseTwo.Tables :=
  downgrade (head.undone t)

@[simp] theorem undone_userRoles (head : Revision) (t : Tables) :
    (head.undone t).userRoles = t.userRoles := by
  cases head <;> rfl

theorem deletePermission_permissions (resource action : String) (t : Tables) :
    (deletePermission resource action t).permissions ⊆ t.permissions :=
  List.filter_subset_self _

theorem deletePermission_rolePermissions (resource action : String) (t : Tables) :
    (deletePermission resource action t).rolePermissions ⊆ t.rolePermissions :=
  List.filter_subset_self _

theorem undone_permissions (head : Revision) (t : Tables) :
    (head.undone t).permissions ⊆ t.permissions := by
  cases head with
  | addOrganizations => exact List.Subset.refl _
  | seedOrganizationManage | addAuditLogs => exact deletePermission_permissions _ _ _
  | seedAuditView =>
      exact List.Subset.trans (deletePermission_permissions _ _ _)
        (deletePermission_permissions _ _ t)

theorem undone_rolePermissions (head : Revision) (t : Tables) :
    (head.undone t).rolePermissions ⊆ t.rolePermissions := by
  cases head with
  | addOrganizations => exact List.Subset.refl _
  | seedOrganizationManage | addAuditLogs => exact deletePermission_rolePermissions _ _ _
  | seedAuditView =>
      exact List.Subset.trans (deletePermission_rolePermissions _ _ _)
        (deletePermission_rolePermissions _ _ t)

theorem downgrade_eq_ok {t : Tables} {d : PhaseTwo.Tables} :
    downgrade t = .ok d ↔ (t.userRoles.map assignmentPair).Nodup ∧
      d = ⟨t.users, t.refreshTokens, t.roles.map dropRoleOrganization, t.permissions,
        t.rolePermissions, t.userRoles.map dropUserRoleOrganization⟩ := by
  by_cases h : (t.userRoles.map assignmentPair).Nodup
  · simp [downgrade, createUniqueConstraint, h, eq_comm]
  · simp [downgrade, createUniqueConstraint, h]

end Migrations

end SecureIam
