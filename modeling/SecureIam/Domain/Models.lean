import Mathlib.Logic.Basic

/-!
Rows of the nine tables, audit actions and errors.

A row keeps the columns that some function of the application reads or returns.
`gen_random_uuid()` keys are opaque; `str()` of one only ever labels a message or
an `event_metadata` field.
-/
namespace SecureIam

structure Uuid where
  val : Nat
deriving DecidableEq, Repr

instance : ToString Uuid := ⟨fun u => toString u.val⟩

/-- A Python `str`: stretches of text, and between them the surrogate code points `U+D800` to
`U+DFFF`, which no text has. -/
inductive PyStr where
  | text (s : String)
  | surrogate (before : String) (codePoint : Fin 2048) (rest : PyStr)
deriving DecidableEq, Repr

instance : Coe String PyStr := ⟨.text⟩

/-- `str.encode("utf-8")`: a `String` is its UTF-8 bytes, and a surrogate has none. -/
def PyStr.encode : PyStr → Option String
  | text s => some s
  | surrogate _ _ _ => none

/-- `str()` of an optional key in an f-string. -/
def strOptional : Option Uuid → String
  | none => "None"
  | some u => toString u

/-- Microseconds since the epoch, the resolution of both Python and PostgreSQL. -/
abbrev Time := Int

def Time.second : Time := 1000000
def Time.day : Time := 86400 * Time.second

structure User where
  id : Uuid
  email : String
  passwordHash : String
  isActive : Bool
  createdAt : Time
  lastLoginAt : Option Time
deriving DecidableEq, Repr

structure RefreshToken where
  id : Uuid
  userId : Uuid
  tokenHash : String
  expiresAt : Time
  revokedAt : Option Time
  replacedBy : Option Uuid
deriving DecidableEq, Repr

structure Role where
  id : Uuid
  name : String
  description : Option String
  isSystemRole : Bool
  organizationId : Option Uuid
deriving DecidableEq, Repr

structure Permission where
  id : Uuid
  resource : String
  action : String
  description : Option String
deriving DecidableEq, Repr

structure RolePermission where
  roleId : Uuid
  permissionId : Uuid
deriving DecidableEq, Repr

structure UserRole where
  id : Uuid
  userId : Uuid
  roleId : Uuid
  organizationId : Option Uuid
deriving DecidableEq, Repr

structure Organization where
  id : Uuid
  name : String
  createdAt : Time
deriving DecidableEq, Repr

structure OrganizationMembership where
  id : Uuid
  userId : Uuid
  organizationId : Uuid
  joinedAt : Time
deriving DecidableEq, Repr

inductive AuditAction where
  | userRegistered
  | userRegistrationFailed
  | userLoginSucceeded
  | userLoginFailed
  | userLogout
  | refreshTokenRotated
  | refreshTokenRejected
  | refreshTokenReuseDetected
  | refreshTokenFamilyRevoked
  | roleCreated
  | roleAssigned
  | roleRevoked
  | permissionAssignedToRole
  | permissionRemovedFromRole
  | organizationCreated
  | organizationMemberAdded
  | organizationMemberRemoved
deriving DecidableEq, Repr

/-- The constants of `audit_actions.py`, as stored in `audit_logs.action`. -/
def AuditAction.text : AuditAction → String
  | userRegistered => "user.registered"
  | userRegistrationFailed => "user.registration_failed"
  | userLoginSucceeded => "user.login_succeeded"
  | userLoginFailed => "user.login_failed"
  | userLogout => "user.logout"
  | refreshTokenRotated => "refresh_token.rotated"
  | refreshTokenRejected => "refresh_token.rejected"
  | refreshTokenReuseDetected => "refresh_token.reuse_detected"
  | refreshTokenFamilyRevoked => "refresh_token.family_revoked"
  | roleCreated => "role.created"
  | roleAssigned => "role.assigned"
  | roleRevoked => "role.revoked"
  | permissionAssignedToRole => "permission.assigned_to_role"
  | permissionRemovedFromRole => "permission.removed_from_role"
  | organizationCreated => "organization.created"
  | organizationMemberAdded => "organization.member_added"
  | organizationMemberRemoved => "organization.member_removed"

/-- `target_type`: which table `target_id` points into. -/
inductive TargetType where
  | user
  | role
  | organization
  | refreshToken
deriving DecidableEq, Repr

def TargetType.text : TargetType → String
  | user => "user"
  | role => "role"
  | organization => "organization"
  | refreshToken => "refresh_token"

/-- A value of the JSONB column `event_metadata`; `uuid u` is the string `str(u)`. -/
inductive MetaValue where
  | str (s : String)
  | uuid (u : Uuid)
  | bool (b : Bool)
deriving DecidableEq, Repr

abbrev EventMetadata := List (String × MetaValue)

structure AuditLog where
  id : Uuid
  occurredAt : Time
  actorUserId : Option Uuid
  action : AuditAction
  targetType : Option TargetType
  targetId : Option Uuid
  organizationId : Option Uuid
  eventMetadata : Option EventMetadata
deriving DecidableEq, Repr

/-- The keyword arguments of `AuditLogRepository.record`. -/
structure AuditRecord where
  action : AuditAction
  actorUserId : Option Uuid := none
  targetType : Option TargetType := none
  targetId : Option Uuid := none
  organizationId : Option Uuid := none
  eventMetadata : Option EventMetadata := none
deriving DecidableEq, Repr

/-- What a service call can raise: the domain exceptions, the repositories' own
ones, and what the driver and the ORM raise untranslated. -/
inductive Error where
  -- app/domain/exceptions.py
  | emailAlreadyExists (message : String)
  | invalidCredentials (message : String)
  | inactiveUser (message : String)
  | invalidRefreshToken (message : String)
  | roleNotFound (message : String)
  | permissionNotFound (message : String)
  | roleNameAlreadyExists (message : String)
  | roleAlreadyAssigned (message : String)
  | permissionAlreadyAssigned (message : String)
  | organizationNotFound (message : String)
  | organizationNameAlreadyExists (message : String)
  | userNotFound (message : String)
  | roleOrganizationMismatch (message : String)
  | userNotOrganizationMember (message : String)
  | organizationMembershipAlreadyExists (message : String)
  -- app/repositories/exceptions.py
  | duplicateEmail (message : String)
  | duplicateRoleName (message : String)
  | duplicateRoleAssignment (message : String)
  | duplicateRolePermission (message : String)
  | duplicateOrganizationName (message : String)
  | duplicateMembership (message : String)
  -- sqlalchemy
  | integrityError
  | multipleResultsFound
  | staleDataError
  | couldNotRefresh
  -- what PostgreSQL refuses to store or to compare
  | dataError
  -- builtins
  | unicodeEncodeError
  -- fastapi.HTTPException
  | http (status : Nat) (detail : String)
deriving DecidableEq, Repr

end SecureIam
