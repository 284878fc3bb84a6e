import SecureIam.Api.Dependencies
import SecureIam.Services.Requests

/-!
`app/api/v1/`: the routes of the auth, authorize, organizations and audit routers. Each
calls one service and turns the errors that it knows into HTTP errors; any other error is
left to the framework.
-/
namespace SecureIam.Api
open Lib App AuditLogRepository
variable (env : Environment)

/-- A route with its path, query and body, as validated. -/
inductive Route where
  | register (email password : String)
  | login (email password : String)
  | refresh (refreshToken : PyStr)
  | logout (refreshToken : PyStr)
  | authorize (resource action : String) (organizationId : Option Uuid)
  | createRole (name : String) (description : Option String) (organizationId : Option Uuid)
  | assignPermissionToRole (roleId permissionId : Uuid)
  | removePermissionFromRole (roleId permissionId : Uuid)
  | getMyPermissions (organizationId : Option Uuid)
  | assignRoleToUser (userId roleId : Uuid) (organizationId : Option Uuid)
  | revokeRoleFromUser (userId roleId : Uuid) (organizationId : Option Uuid)
  | getUserPermissions (userId : Uuid) (organizationId : Option Uuid)
  | createOrganization (name : String)
  | addOrganizationMember (organizationId userId : Uuid)
  | removeOrganizationMember (organizationId userId : Uuid)
  | listOrganizationMembers (organizationId : Uuid)
  | getMyOrganizations
  | listAuditLogs (f : EventFilter) (limit offset : Nat)
deriving DecidableEq, Repr

structure HttpRequest where
  authorization : Option String
  route : Route
deriving DecidableEq, Repr

structure HttpResponse where
  status : Nat
  body : Option Response
deriving DecidableEq, Repr

def ok (r : Response) : HttpResponse := ⟨200, some r⟩
def created (r : Response) : HttpResponse := ⟨201, some r⟩
def noContent : HttpResponse := ⟨204, none⟩

/-- `except SomeError: raise HTTPException(status, detail)` -/
def translate {α : Type} (p : App α) (known : Error → Option (Nat × String)) : App α :=
  p.handle fun e =>
    match known e with
    | some (status, detail) => .raise (.http status detail)
    | none => .raise e

def register (email password : String) : App HttpResponse := do
  let result ← translate (AuthService.register env email password) fun
    | .emailAlreadyExists _ => some (409, "Unable to register with the provided details.")
    | _ => none
  return created (.registered result)

def login (email password : String) : App HttpResponse := do
  let result ← translate (AuthService.login env email password) fun
    | .invalidCredentials _ => some (401, "Invalid email or password.")
    | .inactiveUser _ => some (403, "Account is inactive.")
    | _ => none
  return ok (.tokens result)

def refresh (refreshToken : PyStr) : App HttpResponse := do
  let result ← translate (AuthService.refresh env refreshToken) fun
    | .invalidRefreshToken _ => some (401, "Invalid or expired refresh token.")
    | _ => none
  return ok (.tokens result)

def logout (refreshToken : PyStr) : App HttpResponse := do
  AuthService.logout env refreshToken
  return noContent

section Authorize
variable (authorization : Option String)

def authorize (resource action : String) (organizationId : Option Uuid) : App HttpResponse := do
  let user ← getCurrentUser env authorization
  let decision ← AuthorizationService.authorize env user.id resource action organizationId
  return ok (.decision decision)

def createRole (name : String) (description : Option String) (organizationId : Option Uuid) :
    App HttpResponse := do
  let admin ← requirePermission env "role" "manage" authorization
  let result ← translate
      (AuthorizationService.createRole name description organizationId admin.id) fun
    | .organizationNotFound _ => some (404, "Organization not found.")
    | .roleNameAlreadyExists _ => some (409, "A role with this name already exists.")
    | _ => none
  return created (.role result)

def assignPermissionToRole (roleId permissionId : Uuid) : App HttpResponse := do
  let admin ← requirePermission env "role" "manage" authorization
  translate (AuthorizationService.assignPermissionToRole roleId permissionId admin.id) fun
    | .roleNotFound _ => some (404, "Role not found.")
    | .permissionNotFound _ => some (404, "Permission not found.")
    | .permissionAlreadyAssigned _ => some (409, "Role already has this permission.")
    | _ => none
  return noContent

def removePermissionFromRole (roleId permissionId : Uuid) : App HttpResponse := do
  let admin ← requirePermission env "role" "manage" authorization
  let _ ← translate (AuthorizationService.removePermissionFromRole roleId permissionId admin.id) fun
    | .roleNotFound _ => some (404, "Role not found.")
    | _ => none
  return noContent

def getMyPermissions (organizationId : Option Uuid) : App HttpResponse := do
  let user ← getCurrentUser env authorization
  let permissions ← AuthorizationService.getUserPermissions env user.id organizationId
  return ok (.permissions permissions)

def assignRoleToUser (userId roleId : Uuid) (organizationId : Option Uuid) : App HttpResponse := do
  let admin ← requirePermission env "user" "manage" authorization
  translate (AuthorizationService.assignRole userId roleId organizationId admin.id) fun
    | .roleNotFound _ => some (404, "Role not found.")
    | .organizationNotFound _ => some (404, "Organization not found.")
    | .roleOrganizationMismatch _ =>
        some (409, "This role's organization scope does not match the requested assignment.")
    | .userNotOrganizationMember _ => some (409, "User is not a member of this organization.")
    | .roleAlreadyAssigned _ => some (409, "User already has this role.")
    | _ => none
  return noContent

def revokeRoleFromUser (userId roleId : Uuid) (organizationId : Option Uuid) :
    App HttpResponse := do
  let admin ← requirePermission env "user" "manage" authorization
  let _ ← AuthorizationService.revokeRole userId roleId organizationId admin.id
  return noContent

def getUserPermissions (userId : Uuid) (organizationId : Option Uuid) : App HttpResponse := do
  let _ ← requirePermission env "user" "manage" authorization
  let permissions ← AuthorizationService.getUserPermissions env userId organizationId
  return ok (.permissions permissions)

end Authorize

section Organizations
variable (authorization : Option String)

def createOrganization (name : String) : App HttpResponse := do
  let admin ← requirePermission env "organization" "manage" authorization
  let result ← translate (OrganizationService.createOrganization name admin.id) fun
    | .organizationNameAlreadyExists _ =>
        some (409, "An organization with this name already exists.")
    | _ => none
  return created (.organization result)

def addOrganizationMember (organizationId userId : Uuid) : App HttpResponse := do
  let admin ← requirePermission env "organization" "manage" authorization
  translate (OrganizationService.addMember userId organizationId admin.id) fun
    | .userNotFound _ => some (404, "User not found.")
    | .organizationNotFound _ => some (404, "Organization not found.")
    | .organizationMembershipAlreadyExists _ =>
        some (409, "User is already a member of this organization.")
    | _ => none
  return noContent

def removeOrganizationMember (organizationId userId : Uuid) : App HttpResponse := do
  let admin ← requirePermission env "organization" "manage" authorization
  let _ ← OrganizationService.removeMember userId organizationId admin.id
  return noContent

def listOrganizationMembers (organizationId : Uuid) : App HttpResponse := do
  let _ ← requirePermission env "organization" "manage" authorization
  let members ← translate (OrganizationService.listMembers organizationId) fun
    | .organizationNotFound _ => some (404, "Organization not found.")
    | _ => none
  return ok (.members members)

def getMyOrganizations : App HttpResponse := do
  let user ← getCurrentUser env authorization
  let organizations ← OrganizationService.listOrganizationsForUser env user.id
  return ok (.organizations organizations)

end Organizations

def listAuditLogs (authorization : Option String) (f : EventFilter) (limit offset : Nat) :
    App HttpResponse := do
  let _ ← requirePermission env "audit" "view" authorization
  let page ← AuditLogService.listEvents f limit offset
  return ok (.events page)

def handler (req : HttpRequest) : App HttpResponse :=
  match req.route with
  | .register email password => register env email password
  | .login email password => login env email password
  | .refresh x => refresh env x
  | .logout x => logout env x
  | .authorize r a o => authorize env req.authorization r a o
  | .createRole n d o => createRole env req.authorization n d o
  | .assignPermissionToRole r p => assignPermissionToRole env req.authorization r p
  | .removePermissionFromRole r p => removePermissionFromRole env req.authorization r p
  | .getMyPermissions o => getMyPermissions env req.authorization o
  | .assignRoleToUser u r o => assignRoleToUser env req.authorization u r o
  | .revokeRoleFromUser u r o => revokeRoleFromUser env req.authorization u r o
  | .getUserPermissions u o => getUserPermissions env req.authorization u o
  | .createOrganization n => createOrganization env req.authorization n
  | .addOrganizationMember o u => addOrganizationMember env req.authorization o u
  | .removeOrganizationMember o u => removeOrganizationMember env req.authorization o u
  | .listOrganizationMembers o => listOrganizationMembers env req.authorization o
  | .getMyOrganizations => getMyOrganizations env req.authorization
  | .listAuditLogs f limit offset => listAuditLogs env req.authorization f limit offset

/-- One session for the dependencies and the service of a request; it is closed in the end. -/
def respond (req : HttpRequest) : App HttpResponse := (handler env req).ensure App.rollback

/-- The requests of a running server. -/
abbrev Server (env : Environment) := Pool (machine env) HttpRequest Error HttpResponse

/-- Nobody has called yet. -/
def Server.started {env : Environment} (t : Tables) : Server env := ⟨⟨⟨t, fun _ => none⟩, []⟩, []⟩

end SecureIam.Api
