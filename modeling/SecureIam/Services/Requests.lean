import SecureIam.Services.AuthService
import SecureIam.Services.OrganizationService

/-!
Every service call as a request that runs on a session of its own, and the runs of
any number of them at once.
-/
namespace SecureIam
open Lib

inductive Request where
  | register (email password : String)
  | login (email password : String)
  | refresh (refreshToken : PyStr)
  | logout (refreshToken : PyStr)
  | authorize (userId : Uuid) (resource action : String) (organizationId : Option Uuid)
  | createRole (name : String) (description : Option String) (organizationId : Option Uuid)
      (actorUserId : Uuid)
  | assignRole (userId roleId : Uuid) (organizationId : Option Uuid) (actorUserId : Uuid)
  | revokeRole (userId roleId : Uuid) (organizationId : Option Uuid) (actorUserId : Uuid)
  | assignPermissionToRole (roleId permissionId actorUserId : Uuid)
  | removePermissionFromRole (roleId permissionId actorUserId : Uuid)
  | getUserPermissions (userId : Uuid) (organizationId : Option Uuid)
  | createOrganization (name : String) (actorUserId : Uuid)
  | addMember (userId organizationId actorUserId : Uuid)
  | removeMember (userId organizationId actorUserId : Uuid)
  | listMembers (organizationId : Uuid)
  | listOrganizationsForUser (userId : Uuid)
  | listEvents (f : AuditLogRepository.EventFilter) (limit offset : Nat)
  /-- An operator's `UPDATE users SET is_active`: no service writes the column. -/
  | setIsActive (userId : Uuid) (active : Bool)
deriving DecidableEq, Repr

inductive Response where
  | registered (r : RegisterResponse)
  | tokens (r : TokenResponse)
  | decision (d : AuthorizationDecision)
  | role (r : RoleResponse)
  | permissions (ps : List PermissionResponse)
  | organization (r : OrganizationResponse)
  | organizations (rs : List OrganizationResponse)
  | members (rs : List OrganizationMemberResponse)
  | events (page : AuditLogPageResponse)
  | changed (b : Bool)
  | done
deriving DecidableEq, Repr

def setIsActive (userId : Uuid) (active : Bool) : App Unit := do
  let _ ← App.issue (.updateIsActive userId active)
  App.commit

def call (env : Environment) : Request → App Response
  | .register email password => .registered <$> AuthService.register env email password
  | .login email password => .tokens <$> AuthService.login env email password
  | .refresh x => .tokens <$> AuthService.refresh env x
  | .logout x => (fun _ => .done) <$> AuthService.logout env x
  | .authorize u r a o => .decision <$> AuthorizationService.authorize env u r a o
  | .createRole n d o actor => .role <$> AuthorizationService.createRole n d o actor
  | .assignRole u r o actor => (fun _ => .done) <$> AuthorizationService.assignRole u r o actor
  | .revokeRole u r o actor => .changed <$> AuthorizationService.revokeRole u r o actor
  | .assignPermissionToRole r p actor =>
      (fun _ => .done) <$> AuthorizationService.assignPermissionToRole r p actor
  | .removePermissionFromRole r p actor =>
      .changed <$> AuthorizationService.removePermissionFromRole r p actor
  | .getUserPermissions u o => .permissions <$> AuthorizationService.getUserPermissions env u o
  | .createOrganization n actor => .organization <$> OrganizationService.createOrganization n actor
  | .addMember u o actor => (fun _ => .done) <$> OrganizationService.addMember u o actor
  | .removeMember u o actor => .changed <$> OrganizationService.removeMember u o actor
  | .listMembers o => .members <$> OrganizationService.listMembers o
  | .listOrganizationsForUser u =>
      .organizations <$> OrganizationService.listOrganizationsForUser env u
  | .listEvents f limit offset => .events <$> AuditLogService.listEvents f limit offset
  | .setIsActive u active => (fun _ => .done) <$> setIsActive u active

/-- `get_db`: the session is closed however the call ends, which rolls back what it
left uncommitted. -/
def serve (env : Environment) (req : Request) : App Response :=
  (call env req).ensure App.rollback

/-- The tables as the migrations leave them: roles and permissions only. -/
structure Tables.Seeded (env : Environment) (t : Tables) : Prop where
  schema : t.Schema
  undrawn : ∀ m τ, ¬ t.hasKey (.primary τ (env.uuid m))
  users : t.users = []
  refreshTokens : t.refreshTokens = []
  userRoles : t.userRoles = []
  organizations : t.organizations = []
  memberships : t.memberships = []
  auditLogs : t.auditLogs = []

abbrev Calls (env : Environment) := Pool (machine env) Request Error Response

/-- Nobody has called yet. -/
def Calls.fresh (env : Environment) (t : Tables) : Calls env :=
  ⟨⟨⟨t, fun _ => none⟩, []⟩, []⟩

def Calls.Reachable {env : Environment} (p : Calls env) : Prop :=
  ∃ t, t.Seeded env ∧ Reaches (serve env) (Calls.fresh env t) p

end SecureIam
