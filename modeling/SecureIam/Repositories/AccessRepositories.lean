import SecureIam.Repositories.Basic
import Mathlib.Data.List.Sort
import Mathlib.Data.List.Dedup

/-!
`app/repositories/`: roles, permissions, role assignments, organizations and their
members. Each returns what it found or changed; what a duplicate means is left to
the services.
-/
namespace SecureIam
open Lib App

namespace RoleRepository

def draft (name : String) (description : Option String) (organizationId : Option Uuid) :
    Table.Draft .roles where
  row id _ := ⟨id, name, description, false, organizationId⟩
  drawn u now id h := by simpa [Table.keys] using h

def createRole (name : String) (description : Option String) (organizationId : Option Uuid) :
    App Role := do
  let role ← exceptIntegrityError
    (do
      let role ← insert .roles (draft name description organizationId)
      commit
      return role)
    (.duplicateRoleName s!"Role name already exists: {name}")
  refresh .roles role.id

def getById (roleId : Uuid) : App (Option Role) := do
  scalarOneOrNone (← select .roles fun t => t.roles.filter (·.id = roleId))

def permissionDraft (roleId permissionId : Uuid) : Table.Draft .rolePermissions where
  row _ _ := ⟨roleId, permissionId⟩
  drawn u now id h := by simp [Table.keys] at h

def addPermission (roleId permissionId : Uuid) : App Unit :=
  exceptIntegrityError
    (do
      let _ ← insert .rolePermissions (permissionDraft roleId permissionId)
      commit)
    (.duplicateRolePermission s!"Role {roleId} already has permission {permissionId}")

def removePermission (roleId permissionId : Uuid) : App Bool := do
  let rowcount ← issue (.deleteRolePermission roleId permissionId)
  commit
  return 0 < rowcount

end RoleRepository

namespace PermissionRepository

def getById (permissionId : Uuid) : App (Option Permission) := do
  scalarOneOrNone (← select .permissions fun t => t.permissions.filter (·.id = permissionId))

end PermissionRepository

namespace UserRoleRepository

/-- `_organization_scope_filter`: global rows always match. -/
def inScope (organizationId : Option Uuid) (ur : UserRole) : Bool :=
  ur.organizationId = none ∨ (organizationId ≠ none ∧ ur.organizationId = organizationId)

def draft (userId roleId : Uuid) (organizationId : Option Uuid) : Table.Draft .userRoles where
  row id _ := ⟨id, userId, roleId, organizationId⟩
  drawn u now id h := by simpa [Table.keys] using h

def assign (userId roleId : Uuid) (organizationId : Option Uuid) : App UserRole := do
  let userRole ← exceptIntegrityError
    (do
      let userRole ← insert .userRoles (draft userId roleId organizationId)
      commit
      return userRole)
    (.duplicateRoleAssignment
      s!"User {userId} already has role {roleId} (organization_id={strOptional organizationId})")
  refresh .userRoles userRole.id

def revoke (userId roleId : Uuid) (organizationId : Option Uuid) : App Bool := do
  let result ← select .userRoles fun t => t.userRoles.filter fun ur =>
    ur.userId = userId ∧ ur.roleId = roleId ∧ ur.organizationId = organizationId
  match ← scalarOneOrNone result with
  | none => return false
  | some userRole =>
      -- a DELETE of a row that is gone only warns
      let _ ← issue (.deleteUserRole userRole.id)
      commit
      return true

/-- The rows of the join `roles`, `user_roles`: one for each assignment. -/
def roleRows (userId : Uuid) (organizationId : Option Uuid) (t : Tables) : List Role :=
  t.roles.flatMap fun role =>
    (t.userRoles.filter fun ur =>
      ur.roleId = role.id ∧ ur.userId = userId ∧ inScope organizationId ur).map fun _ => role

/-- `ORDER BY name` -/
def rolesForUser (env : Environment) (userId : Uuid) (organizationId : Option Uuid) (t : Tables) :
    List Role :=
  (roleRows userId organizationId t).insertionSort fun a b => env.collate a.name b.name

def getRolesForUser (env : Environment) (userId : Uuid) (organizationId : Option Uuid) :
    App (List Role) :=
  select .roles (rolesForUser env userId organizationId)

/-- `ORDER BY resource, action` -/
def permissionLe (env : Environment) (p q : Permission) : Bool :=
  if p.resource = q.resource then env.collate p.action q.action
  else env.collate p.resource q.resource

/-- The rows of the join `permissions`, `role_permissions`, `user_roles`. -/
def permissionRows (userId : Uuid) (organizationId : Option Uuid) (t : Tables) : List Permission :=
  t.permissions.flatMap fun p =>
    (t.rolePermissions.filter (·.permissionId = p.id)).flatMap fun rp =>
      (t.userRoles.filter fun ur =>
        ur.roleId = rp.roleId ∧ ur.userId = userId ∧ inScope organizationId ur).map fun _ => p

def permissionsForUser (env : Environment) (userId : Uuid) (organizationId : Option Uuid)
    (t : Tables) : List Permission :=
  (permissionRows userId organizationId t).dedup.insertionSort (permissionLe env · ·)

def getPermissionsForUser (env : Environment) (userId : Uuid) (organizationId : Option Uuid) :
    App (List Permission) :=
  select .permissions (permissionsForUser env userId organizationId)

end UserRoleRepository

namespace OrganizationRepository

def draft (name : String) : Table.Draft .organizations where
  row id now := ⟨id, name, now⟩
  drawn u now id h := by simpa [Table.keys] using h

def createOrganization (name : String) : App Organization := do
  let organization ← exceptIntegrityError
    (do
      let organization ← insert .organizations (draft name)
      commit
      return organization)
    (.duplicateOrganizationName s!"Organization name already exists: {name}")
  refresh .organizations organization.id

def getById (organizationId : Uuid) : App (Option Organization) := do
  scalarOneOrNone (← select .organizations fun t => t.organizations.filter (·.id = organizationId))

end OrganizationRepository

namespace OrganizationMembershipRepository

def draft (userId organizationId : Uuid) : Table.Draft .memberships where
  row id now := ⟨id, userId, organizationId, now⟩
  drawn u now id h := by simpa [Table.keys] using h

def addMember (userId organizationId : Uuid) : App OrganizationMembership := do
  let membership ← exceptIntegrityError
    (do
      let membership ← insert .memberships (draft userId organizationId)
      commit
      return membership)
    (.duplicateMembership s!"User {userId} is already a member of organization {organizationId}")
  refresh .memberships membership.id

def membershipsOf (userId organizationId : Uuid) (t : Tables) : List OrganizationMembership :=
  t.memberships.filter fun m => m.userId = userId ∧ m.organizationId = organizationId

def removeMember (userId organizationId : Uuid) : App Bool := do
  match ← scalarOneOrNone (← select .memberships (membershipsOf userId organizationId)) with
  | none => return false
  | some membership =>
      let _ ← issue (.deleteMembership membership.id)
      commit
      return true

def isMember (userId organizationId : Uuid) : App Bool := do
  return (← scalarOneOrNone (← select .memberships (membershipsOf userId organizationId))).isSome

def getOrganizationsForUser (env : Environment) (userId : Uuid) : App (List Organization) :=
  select .organizations fun t =>
    (t.organizations.flatMap fun o =>
      (t.memberships.filter fun m => m.organizationId = o.id ∧ m.userId = userId).map fun _ =>
        o).insertionSort fun a b => env.collate a.name b.name

def getMembersForOrganization (organizationId : Uuid) : App (List Member) :=
  issue (.selectMembers
    (fun t => t.users.flatMap fun u =>
      (t.memberships.filter fun m =>
        m.userId = u.id ∧ m.organizationId = organizationId).map fun m =>
          ⟨u.id, u.email, m.joinedAt⟩)
    (fun rows => rows.insertionSort fun a b => a.joinedAt ≤ b.joinedAt))

end OrganizationMembershipRepository

end SecureIam
