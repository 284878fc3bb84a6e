import SecureIam.Services.AuthorizationService

/-!
`app/domain/services/organization_service.py` and `audit_log_service.py`.
-/
namespace SecureIam

structure OrganizationResponse where
  id : Uuid
  name : String
  createdAt : Time
deriving DecidableEq, Repr

structure OrganizationMemberResponse where
  userId : Uuid
  email : String
  joinedAt : Time
deriving DecidableEq, Repr

namespace OrganizationService
open Lib App AuditLogRepository
open AuthorizationService (organizationNotFound requireOrganization)
variable (env : Environment)

def createOrganization (name : String) (actorUserId : Uuid) : App OrganizationResponse := do
  let organization ← (OrganizationRepository.createOrganization name).handle fun
    | .duplicateOrganizationName _ =>
        .raise (.organizationNameAlreadyExists s!"Organization name already exists: {name}")
    | e => .raise e
  let _ ← record
    { action := .organizationCreated
      actorUserId := some actorUserId
      targetType := some .organization
      targetId := some organization.id
      organizationId := some organization.id
      eventMetadata := some [("name", .str organization.name)] }
  return ⟨organization.id, organization.name, organization.createdAt⟩

def memberEvent (action : AuditAction) (userId organizationId actorUserId : Uuid) :
    AuditRecord where
  action := action
  actorUserId := some actorUserId
  targetType := some .user
  targetId := some userId
  organizationId := some organizationId

def addMember (userId organizationId actorUserId : Uuid) : App Unit := do
  if (← UserRepository.getById userId).isNone then
    .raise (.userNotFound s!"User not found: {userId}")
  requireOrganization organizationId
  let _ ← (OrganizationMembershipRepository.addMember userId organizationId).handle fun
    | .duplicateMembership _ => .raise (.organizationMembershipAlreadyExists
        s!"User {userId} is already a member of organization {organizationId}")
    | e => .raise e
  let _ ← record (memberEvent .organizationMemberAdded userId organizationId actorUserId)

def removeMember (userId organizationId actorUserId : Uuid) : App Bool := do
  let removed ← OrganizationMembershipRepository.removeMember userId organizationId
  if removed then
    let _ ← record (memberEvent .organizationMemberRemoved userId organizationId actorUserId)
  return removed

def listMembers (organizationId : Uuid) : App (List OrganizationMemberResponse) := do
  requireOrganization organizationId
  let members ← OrganizationMembershipRepository.getMembersForOrganization organizationId
  return members.map fun m => ⟨m.userId, m.email, m.joinedAt⟩

def listOrganizationsForUser (userId : Uuid) : App (List OrganizationResponse) := do
  let organizations ← OrganizationMembershipRepository.getOrganizationsForUser env userId
  return organizations.map fun o => ⟨o.id, o.name, o.createdAt⟩

end OrganizationService

structure AuditLogPageResponse where
  events : List AuditLog
  total : Nat
  limit : Nat
  offset : Nat
deriving DecidableEq, Repr

namespace AuditLogService
open Lib App AuditLogRepository

def listEvents (f : EventFilter) (limit offset : Nat) : App AuditLogPageResponse := do
  let events ← AuditLogRepository.listEvents f limit offset
  let total ← countEvents f
  return ⟨events, total, limit, offset⟩

end AuditLogService

end SecureIam
