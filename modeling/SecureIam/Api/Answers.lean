import SecureIam.Api.Routes

/-!
The routes as one: a guard, the service call that it admits, what the errors of the call
become and what its response becomes.
-/
namespace SecureIam.Api
open Lib Program
variable {env : Environment} {α β : Type}

inductive Guard where
  | anyone
  | user
  | permission (resource action : String)
deriving DecidableEq, Repr

namespace Route

/-- What a route depends on. -/
def guard : Route → Guard
  | register _ _ | login _ _ | refresh _ | logout _ => .anyone
  | authorize _ _ _ | getMyPermissions _ | getMyOrganizations => .user
  | createRole _ _ _ | assignPermissionToRole _ _ | removePermissionFromRole _ _ =>
      .permission "role" "manage"
  | assignRoleToUser _ _ _ | revokeRoleFromUser _ _ _ | getUserPermissions _ _ =>
      .permission "user" "manage"
  | createOrganization _ | addOrganizationMember _ _ | removeOrganizationMember _ _
  | listOrganizationMembers _ => .permission "organization" "manage"
  | listAuditLogs _ _ _ => .permission "audit" "view"

/-- The call that a route makes, on behalf of its caller. -/
def request (caller : Uuid) : Route → Request
  | register email password => .register email password
  | login email password => .login email password
  | refresh x => .refresh x
  | logout x => .logout x
  | authorize r a o => .authorize caller r a o
  | createRole n d o => .createRole n d o caller
  | assignPermissionToRole r p => .assignPermissionToRole r p caller
  | removePermissionFromRole r p => .removePermissionFromRole r p caller
  | getMyPermissions o => .getUserPermissions caller o
  | assignRoleToUser u r o => .assignRole u r o caller
  | revokeRoleFromUser u r o => .revokeRole u r o caller
  | getUserPermissions u o => .getUserPermissions u o
  | createOrganization n => .createOrganization n caller
  | addOrganizationMember o u => .addMember u o caller
  | removeOrganizationMember o u => .removeMember u o caller
  | listOrganizationMembers o => .listMembers o
  | getMyOrganizations => .listOrganizationsForUser caller
  | listAuditLogs f limit offset => .listEvents f limit offset

/-- The errors that a route turns into HTTP errors. -/
def known : Route → Error → Option (Nat × String)
  | register _ _, .emailAlreadyExists _ =>
      some (409, "Unable to register with the provided details.")
  | login _ _, .invalidCredentials _ => some (401, "Invalid email or password.")
  | login _ _, .inactiveUser _ => some (403, "Account is inactive.")
  | refresh _, .invalidRefreshToken _ => some (401, "Invalid or expired refresh token.")
  | createRole _ _ _, .organizationNotFound _ | assignRoleToUser _ _ _, .organizationNotFound _
  | addOrganizationMember _ _, .organizationNotFound _
  | listOrganizationMembers _, .organizationNotFound _ => some (404, "Organization not found.")
  | createRole _ _ _, .roleNameAlreadyExists _ =>
      some (409, "A role with this name already exists.")
  | assignPermissionToRole _ _, .roleNotFound _ | removePermissionFromRole _ _, .roleNotFound _
  | assignRoleToUser _ _ _, .roleNotFound _ => some (404, "Role not found.")
  | assignPermissionToRole _ _, .permissionNotFound _ => some (404, "Permission not found.")
  | assignPermissionToRole _ _, .permissionAlreadyAssigned _ =>
      some (409, "Role already has this permission.")
  | assignRoleToUser _ _ _, .roleOrganizationMismatch _ =>
      some (409, "This role's organization scope does not match the requested assignment.")
  | assignRoleToUser _ _ _, .userNotOrganizationMember _ =>
      some (409, "User is not a member of this organization.")
  | assignRoleToUser _ _ _, .roleAlreadyAssigned _ => some (409, "User already has this role.")
  | createOrganization _, .organizationNameAlreadyExists _ =>
      some (409, "An organization with this name already exists.")
  | addOrganizationMember _ _, .userNotFound _ => some (404, "User not found.")
  | addOrganizationMember _ _, .organizationMembershipAlreadyExists _ =>
      some (409, "User is already a member of this organization.")
  | _, _ => none

def reply : Route → Response → HttpResponse
  | register _ _ | createRole _ _ _ | createOrganization _ => created
  | logout _ | assignPermissionToRole _ _ | removePermissionFromRole _ _ | assignRoleToUser _ _ _
  | revokeRoleFromUser _ _ _ | addOrganizationMember _ _ | removeOrganizationMember _ _ =>
      fun _ => noContent
  | login _ _ | refresh _ | authorize _ _ _ | getMyPermissions _ | getUserPermissions _ _
  | listOrganizationMembers _ | getMyOrganizations | listAuditLogs _ _ _ => ok

end Route

/-- What a route does once its caller is admitted. -/
def answered (env : Environment) (route : Route) (caller : Uuid) : App HttpResponse :=
  (translate (call env (route.request caller)) route.known).bind fun r => .ret (route.reply r)

theorem translate_none (p : App α) : translate p (fun _ => none) = p := by
  rw [translate]
  induction p with
  | ret a => rfl
  | raise e => rfl
  | op o k ih => exact congrArg (Program.op o) (funext ih)

theorem translate_bind (p : App α) (f : α → β) (known : Error → Option (Nat × String)) :
    translate (p.bind fun a => .ret (f a)) known =
      (translate p known).bind fun a => .ret (f a) := by
  simp only [translate]
  induction p with
  | ret a => rfl
  | raise e =>
      simp only [Program.raise_bind, Program.handle, Program.raise_attempt, Program.ret_bind]
      cases known e <;> rfl
  | op o k ih => exact congrArg (Program.op o) (funext ih)

/-- A service without errors to translate, and its response. -/
theorem answered_plain (route : Route) (caller : Uuid) {p : App α} {f : α → Response}
    (hcall : call env (route.request caller) = p.bind fun a => .ret (f a))
    (hknown : route.known = fun _ => none) :
    answered env route caller = p.bind fun a => .ret (route.reply (f a)) := by
  rw [answered, hknown, translate_none, hcall, Program.bind_assoc]
  rfl

/-- A service whose errors are translated, and its response. -/
theorem answered_known (route : Route) (caller : Uuid) {p : App α} {f : α → Response}
    {known : Error → Option (Nat × String)}
    (hcall : call env (route.request caller) = p.bind fun a => .ret (f a))
    (hknown : ∀ e, route.known e = known e) :
    answered env route caller =
      (translate p known).bind fun a => .ret (route.reply (f a)) := by
  rw [answered, show route.known = known from funext hknown, hcall, translate_bind,
    Program.bind_assoc]
  rfl

section Handlers
variable {req : HttpRequest}

/-- A route of the auth router is its service call, whoever calls. -/
theorem handler_anyone (h : req.route.guard = .anyone) (caller : Uuid) :
    handler env req = answered env req.route caller := by
  obtain ⟨authorization, route⟩ := req
  cases route with
  | register email password =>
      exact (answered_known (.register email password) caller
        (p := AuthService.register env email password) (f := .registered) rfl
        fun e => by cases e <;> rfl).symm
  | login email password =>
      exact (answered_known (.login email password) caller
        (p := AuthService.login env email password) (f := .tokens) rfl
        fun e => by cases e <;> rfl).symm
  | refresh x =>
      exact (answered_known (.refresh x) caller (p := AuthService.refresh env x) (f := .tokens) rfl
        fun e => by cases e <;> rfl).symm
  | logout x =>
      exact (answered_plain (.logout x) caller (p := AuthService.logout env x)
        (f := fun _ => .done) rfl rfl).symm
  | _ => cases h

theorem handler_user (h : req.route.guard = .user) : handler env req =
    (getCurrentUser env req.authorization).bind fun user =>
      answered env req.route user.id := by
  obtain ⟨authorization, route⟩ := req
  have hbind : ∀ {f g : User → App HttpResponse}, (∀ user, f user = g user) →
      (getCurrentUser env authorization).bind f = (getCurrentUser env authorization).bind g :=
    fun hfg => congrArg _ (funext hfg)
  cases route with
  | authorize r a o =>
      exact hbind fun user => (answered_plain (.authorize r a o) user.id
        (p := AuthorizationService.authorize env user.id r a o) (f := .decision) rfl rfl).symm
  | getMyPermissions o =>
      exact hbind fun user => (answered_plain (.getMyPermissions o) user.id
        (p := AuthorizationService.getUserPermissions env user.id o) (f := .permissions) rfl
        rfl).symm
  | getMyOrganizations =>
      exact hbind fun user => (answered_plain .getMyOrganizations user.id
        (p := OrganizationService.listOrganizationsForUser env user.id) (f := .organizations) rfl
        rfl).symm
  | _ => cases h

theorem handler_permission {resource action : String}
    (h : req.route.guard = .permission resource action) : handler env req =
      (requirePermission env resource action req.authorization).bind fun user =>
        answered env req.route user.id := by
  obtain ⟨authorization, route⟩ := req
  have hbind : ∀ {r a : String} {f g : User → App HttpResponse}, (∀ user, f user = g user) →
      (requirePermission env r a authorization).bind f =
        (requirePermission env r a authorization).bind g :=
    fun hfg => congrArg _ (funext hfg)
  cases route with
  | createRole n d o =>
      cases h
      exact hbind fun user => (answered_known (.createRole n d o) user.id
        (p := AuthorizationService.createRole n d o user.id) (f := .role) rfl
        fun e => by cases e <;> rfl).symm
  | assignPermissionToRole r p =>
      cases h
      exact hbind fun user => (answered_known (.assignPermissionToRole r p) user.id
        (p := AuthorizationService.assignPermissionToRole r p user.id) (f := fun _ => .done) rfl
        fun e => by cases e <;> rfl).symm
  | removePermissionFromRole r p =>
      cases h
      exact hbind fun user => (answered_known (.removePermissionFromRole r p) user.id
        (p := AuthorizationService.removePermissionFromRole r p user.id) (f := .changed) rfl
        fun e => by cases e <;> rfl).symm
  | assignRoleToUser u r o =>
      cases h
      exact hbind fun user => (answered_known (.assignRoleToUser u r o) user.id
        (p := AuthorizationService.assignRole u r o user.id) (f := fun _ => .done) rfl
        fun e => by cases e <;> rfl).symm
  | createOrganization n =>
      cases h
      exact hbind fun user => (answered_known (.createOrganization n) user.id
        (p := OrganizationService.createOrganization n user.id) (f := .organization) rfl
        fun e => by cases e <;> rfl).symm
  | addOrganizationMember o u =>
      cases h
      exact hbind fun user => (answered_known (.addOrganizationMember o u) user.id
        (p := OrganizationService.addMember u o user.id) (f := fun _ => .done) rfl
        fun e => by cases e <;> rfl).symm
  | listOrganizationMembers o =>
      cases h
      exact hbind fun user => (answered_known (.listOrganizationMembers o) user.id
        (p := OrganizationService.listMembers o) (f := .members) rfl
        fun e => by cases e <;> rfl).symm
  | revokeRoleFromUser u r o =>
      cases h
      exact hbind fun user => (answered_plain (.revokeRoleFromUser u r o) user.id
        (p := AuthorizationService.revokeRole u r o user.id) (f := .changed) rfl rfl).symm
  | getUserPermissions u o =>
      cases h
      exact hbind fun user => (answered_plain (.getUserPermissions u o) user.id
        (p := AuthorizationService.getUserPermissions env u o) (f := .permissions) rfl rfl).symm
  | removeOrganizationMember o u =>
      cases h
      exact hbind fun user => (answered_plain (.removeOrganizationMember o u) user.id
        (p := OrganizationService.removeMember u o user.id) (f := .changed) rfl rfl).symm
  | listAuditLogs f limit offset =>
      cases h
      exact hbind fun user => (answered_plain (.listAuditLogs f limit offset) user.id
        (p := AuditLogService.listEvents f limit offset) (f := .events) rfl rfl).symm
  | _ => cases h

end Handlers

end SecureIam.Api
