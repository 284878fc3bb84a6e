import SecureIam.Core.Security
import SecureIam.Repositories.AuditLogRepository
import SecureIam.Repositories.RefreshTokenRepository
import SecureIam.Repositories.UserRepository

/-!
`app/domain/services/auth_service.py`: register, login, refresh and logout. Every
way to reject a refresh raises the same error; the audit log has the reason.
-/
namespace SecureIam

structure RegisterResponse where
  id : Uuid
  email : String
  createdAt : Time
deriving DecidableEq, Repr

structure TokenResponse where
  accessToken : String
  refreshToken : String
  tokenType : String
  expiresIn : Int
deriving DecidableEq, Repr

namespace AuthService
open Lib App AuditLogRepository
variable (env : Environment)

def register (email password : String) : App RegisterResponse := do
  let passwordHash ← hashPassword password
  let user ← (UserRepository.createUser env email passwordHash).handle fun
    | .duplicateEmail _ => do
        let _ ← record
          { action := .userRegistrationFailed
            targetType := some .user
            eventMetadata := some [("attempted_email", .str email),
              ("reason", .str "duplicate_email")] }
        .raise (.emailAlreadyExists "Unable to register with the provided details.")
    | e => .raise e
  let _ ← record
    { action := .userRegistered
      actorUserId := some user.id
      targetType := some .user
      targetId := some user.id }
  return ⟨user.id, user.email, user.createdAt⟩

/-- `_issue_token_pair` -/
def issueTokenPair (user : User) : App TokenResponse := do
  let accessToken ← createAccessToken env (toString user.id)
  let rawRefreshToken ← generateRefreshToken
  let tokenHash ← .ofExcept (hashRefreshToken env rawRefreshToken)
  let expiresAt ← refreshTokenExpiry env
  let _ ← RefreshTokenRepository.create user.id tokenHash expiresAt
  return ⟨accessToken, rawRefreshToken, "bearer", accessTokenTtlSeconds env⟩

/-- A failed login of a known user. -/
def loginFailed (user : User) (reason : String) : AuditRecord where
  action := .userLoginFailed
  actorUserId := some user.id
  targetType := some .user
  targetId := some user.id
  eventMetadata := some [("reason", .str reason)]

def login (email password : String) : App TokenResponse := do
  match ← UserRepository.getByEmail env email with
  | none =>
      let _ ← record
        { action := .userLoginFailed
          targetType := some .user
          eventMetadata := some [("attempted_email", .str email),
            ("reason", .str "unknown_email")] }
      .raise (.invalidCredentials "Invalid email or password.")
  | some user =>
      if !user.isActive then
        let _ ← record (loginFailed user "inactive_account")
        .raise (.inactiveUser "Account is inactive.")
      else if !env.verifyPassword password user.passwordHash then
        let _ ← record (loginFailed user "wrong_password")
        .raise (.invalidCredentials "Invalid email or password.")
      else
        let _ ← UserRepository.updateLastLogin user
        let _ ← record
          { action := .userLoginSucceeded
            actorUserId := some user.id
            targetType := some .user
            targetId := some user.id }
        issueTokenPair env user

/-- The one error of `refresh`. -/
def invalidRefreshToken : Error := .invalidRefreshToken "Invalid or expired refresh token."

/-- The event of a refresh that is rejected because of the presented token. -/
def rejected (token : RefreshToken) (reason : String) : AuditRecord where
  action := .refreshTokenRejected
  actorUserId := some token.userId
  targetType := some .user
  targetId := some token.userId
  eventMetadata := some [("reason", .str reason)]

def reuseDetected (token : RefreshToken) (familyAlreadyRevoked : Bool) : AuditRecord where
  action := .refreshTokenReuseDetected
  actorUserId := some token.userId
  targetType := some .user
  targetId := some token.userId
  eventMetadata := some
    [("presented_token_id", .uuid token.id), ("family_already_revoked", .bool familyAlreadyRevoked)]

def familyRevoked (token leaf : RefreshToken) : AuditRecord where
  action := .refreshTokenFamilyRevoked
  actorUserId := some token.userId
  targetType := some .refreshToken
  targetId := some leaf.id
  eventMetadata := some [("presented_token_id", .uuid token.id)]

/-- `_handle_revoked_token` -/
def handleRevokedToken (token : RefreshToken) : App Unit := do
  if token.replacedBy = none then
    let _ ← record (rejected token "revoked_token")
  else
    let revokedLeaf ← RefreshTokenRepository.revokeDescendants token
    let _ ← record (reuseDetected token revokedLeaf.isNone)
    if let some leaf := revokedLeaf then
      let _ ← record (familyRevoked token leaf)

/-- `refresh`, once the presented token is found unrevoked. -/
def rotate (token : RefreshToken) : App TokenResponse := do
  if token.expiresAt ≤ (← utcNow) then
    let _ ← record (rejected token "expired_token")
    .raise invalidRefreshToken
  else
    match (← UserRepository.getById token.userId).filter (·.isActive) with
    | none =>
        let _ ← record (rejected token "inactive_or_deleted_owner")
        .raise invalidRefreshToken
    | some user =>
        let newRawRefreshToken ← generateRefreshToken
        let newTokenHash ← .ofExcept (hashRefreshToken env newRawRefreshToken)
        let newExpiresAt ← refreshTokenExpiry env
        match ← RefreshTokenRepository.createRotationPair token newTokenHash newExpiresAt with
        | none =>
            let _ ← record (rejected token "concurrent_rotation_lost")
            .raise invalidRefreshToken
        | some _ =>
            let _ ← record
              { action := .refreshTokenRotated
                actorUserId := some user.id
                targetType := some .user
                targetId := some user.id }
            let accessToken ← createAccessToken env (toString user.id)
            return ⟨accessToken, newRawRefreshToken, "bearer", accessTokenTtlSeconds env⟩

def refresh (refreshToken : PyStr) : App TokenResponse := do
  let tokenHash ← .ofExcept (hashRefreshToken env refreshToken)
  match ← RefreshTokenRepository.getByHash tokenHash with
  | none =>
      let _ ← record
        { action := .refreshTokenRejected
          eventMetadata := some [("reason", .str "unknown_token")] }
      .raise invalidRefreshToken
  | some token =>
      if token.revokedAt ≠ none then
        handleRevokedToken token
        .raise invalidRefreshToken
      else
        rotate env token

def logout (refreshToken : PyStr) : App Unit := do
  let tokenHash ← .ofExcept (hashRefreshToken env refreshToken)
  match ← RefreshTokenRepository.getByHash tokenHash with
  | none => return ()
  | some token =>
      if token.revokedAt ≠ none then
        return ()
      else
        let _ ← RefreshTokenRepository.revoke token
        let _ ← record
          { action := .userLogout
            actorUserId := some token.userId
            targetType := some .user
            targetId := some token.userId }

end AuthService

end SecureIam
