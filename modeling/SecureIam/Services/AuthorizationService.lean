import SecureIam.Repositories.AccessRepositories
import SecureIam.Repositories.AuditLogRepository
import SecureIam.Repositories.UserRepository

/-!
`app/domain/services/authorization_service.py`. Changes are recorded only when they
were made; checks and listings are not recorded at all.
-/
namespace SecureIam

structure AuthorizationDecision where
  allowed : Bool
  resource : String
  action : String
  organizationId : Option Uuid
deriving DecidableEq, Repr

structure RoleResponse where
  id : Uuid
  name : String
  description : Option String
  isSystemRole : Bool
  organizationId : Option Uuid
deriving DecidableEq, Repr

structure PermissionResponse where
  id : Uuid
  resource : String
  action : String
  description : Option String
deriving DecidableEq, Repr

namespace AuthorizationService
open Lib App AuditLogRepository
variable (env : Environment)

def authorize (userId : Uuid) (resource action : String) (organizationId : Option Uuid := none) :
    App AuthorizationDecision := do
  match (← UserRepository.getById userId).filter (·.isActive) with
  | none => return ⟨false, resource, action, organizationId⟩
  | some _ =>
      let permissions ← UserRoleRepository.getPermissionsForUser env userId organizationId
      let allowed := permissions.any fun p => p.resource = resource ∧ p.action = action
      return ⟨allowed, resource, action, organizationId⟩

def organizationNotFound (organizationId : Uuid) : Error :=
  .organizationNotFound s!"Organization not found: {organizationId}"

def roleNotFound (roleId : Uuid) : Error := .roleNotFound s!"Role not found: {roleId}"

/-- An organization that is named must exist. -/
def requireOrganization : Option Uuid → App Unit
  | none => pure ()
  | some organizationId => do
      if (← OrganizationRepository.getById organizationId).isNone then
        .raise (organizationNotFound organizationId)

def createRole (name : String) (description : Option String) (organizationId : Option Uuid)
    (actorUserId : Uuid) : App RoleResponse := do
  requireOrganization organizationId
  let role ← (RoleRepository.createRole name description organizationId).handle fun
    | .duplicateRoleName _ => .raise (.roleNameAlreadyExists s!"Role name already exists: {name}")
    | e => .raise e
  let _ ← record
    { action := .roleCreated
      actorUserId := some actorUserId
      targetType := some .role
      targetId := some role.id
      organizationId := role.organizationId
      eventMetadata := some [("name", .str role.name)] }
  return ⟨role.id, role.name, role.description, role.isSystemRole, role.organizationId⟩

def roleOrganizationMismatch (roleId : Uuid) (roleOrganizationId organizationId : Option Uuid) :
    Error :=
  .roleOrganizationMismatch <|
    s!"Role {roleId} is scoped to organization {strOptional roleOrganizationId}, " ++
    s!"cannot be assigned under organization_id={strOptional organizationId}"

def userNotOrganizationMember (userId organizationId : Uuid) : Error :=
  .userNotOrganizationMember s!"User {userId} is not a member of organization {organizationId}"

/-- Membership is checked when a scoped role is assigned, and never again. -/
def requireMember (userId : Uuid) : Option Uuid → App Unit
  | none => pure ()
  | some organizationId => do
      requireOrganization organizationId
      if !(← OrganizationMembershipRepository.isMember userId organizationId) then
        .raise (userNotOrganizationMember userId organizationId)

/-- The event of an assignment or a revocation: the user is its target. -/
def roleEvent (action : AuditAction) (userId roleId : Uuid) (organizationId : Option Uuid)
    (actorUserId : Uuid) : AuditRecord where
  action := action
  actorUserId := some actorUserId
  targetType := some .user
  targetId := some userId
  organizationId := organizationId
  eventMetadata := some [("role_id", .uuid roleId)]

def assignRole (userId roleId : Uuid) (organizationId : Option Uuid) (actorUserId : Uuid) :
    App Unit := do
  match ← RoleRepository.getById roleId with
  | none => .raise (roleNotFound roleId)
  | some role =>
      if role.organizationId ≠ none ∧ role.organizationId ≠ organizationId then
        .raise (roleOrganizationMismatch roleId role.organizationId organizationId)
      requireMember userId organizationId
      let _ ← (UserRoleRepository.assign userId roleId organizationId).handle fun
        | .duplicateRoleAssignment _ => .raise (.roleAlreadyAssigned
            s!"User {userId} already has role {roleId} (organization_id={strOptional organizationId})")
        | e => .raise e
      let _ ← record (roleEvent .roleAssigned userId roleId organizationId actorUserId)

def revokeRole (userId roleId : Uuid) (organizationId : Option Uuid) (actorUserId : Uuid) :
    App Bool := do
  let revoked ← UserRoleRepository.revoke userId roleId organizationId
  if revoked then
    let _ ← record (roleEvent .roleRevoked userId roleId organizationId actorUserId)
  return revoked

/-- The event of a change of a role's permissions: the role is its target. -/
def permissionEvent (action : AuditAction) (roleId permissionId : Uuid)
    (organizationId : Option Uuid) (actorUserId : Uuid) : AuditRecord where
  action := action
  actorUserId := some actorUserId
  targetType := some .role
  targetId := some roleId
  organizationId := organizationId
  eventMetadata := some [("permission_id", .uuid permissionId)]

def assignPermissionToRole (roleId permissionId actorUserId : Uuid) : App Unit := do
  match ← RoleRepository.getById roleId with
  | none => .raise (roleNotFound roleId)
  | some role =>
      if (← PermissionRepository.getById permissionId).isNone then
        .raise (.permissionNotFound s!"Permission not found: {permissionId}")
      (RoleRepository.addPermission roleId permissionId).handle fun
        | .duplicateRolePermission _ => .raise (.permissionAlreadyAssigned
            s!"Role {roleId} already has permission {permissionId}")
        | e => .raise e
      let _ ← record
        (permissionEvent .permissionAssignedToRole roleId permissionId role.organizationId
          actorUserId)

def removePermissionFromRole (roleId permissionId actorUserId : Uuid) : App Bool := do
  match ← RoleRepository.getById roleId with
  | none => .raise (roleNotFound roleId)
  | some role =>
      let removed ← RoleRepository.removePermission roleId permissionId
      if removed then
        let _ ← record
          (permissionEvent .permissionRemovedFromRole roleId permissionId role.organizationId
            actorUserId)
      return removed

def getUserPermissions (userId : Uuid) (organizationId : Option Uuid) :
    App (List PermissionResponse) := do
  let permissions ← UserRoleRepository.getPermissionsForUser env userId organizationId
  return permissions.map fun p => ⟨p.id, p.resource, p.action, p.description⟩

end AuthorizationService

end SecureIam
