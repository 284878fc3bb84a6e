import SecureIam.Repositories.Basic

/-!
`app/core/security.py`: access tokens, refresh tokens and their expiry.
-/
namespace SecureIam
open Lib App
variable (env : Environment)

/-- The `payload`. `int(now.timestamp())` and `int(expires_at)` are whole seconds, rounded down
for every time after the epoch. -/
def accessPayload (userId : String) (now : Time) (jti : Uuid) : AccessClaims where
  sub := userId
  type := "access"
  iat := now / Time.second
  exp := (now + env.settings.accessTokenTtlMinutes * 60 * Time.second) / Time.second
  jti := toString jti
  iss := env.settings.jwtIssuer

def createAccessToken (userId : String) : App String := do
  let now ← utcNow
  let jti ← uuid4
  return env.jwtEncode (accessPayload env userId now jti)

def decodeAccessToken (token : String) : App (Option AccessClaims) := do
  return env.jwtDecode env.settings.jwtIssuer (← utcNow) token

def hashPassword (password : String) : App String := issue (.hashPassword password)

def generateRefreshToken : App String := issue .tokenUrlsafe

/-- `hashlib.sha256(token.encode("utf-8")).hexdigest()` -/
def hashRefreshToken (token : PyStr) : Except Error String :=
  match token.encode with
  | some bytes => .ok (env.sha256 bytes)
  | none => .error .unicodeEncodeError

@[simp] theorem hashRefreshToken_text (token : String) :
    hashRefreshToken env token = .ok (env.sha256 token) := rfl

def accessTokenTtlSeconds : Int := env.settings.accessTokenTtlMinutes * 60

def refreshTokenExpiry : App Time := do
  return (← utcNow) + env.settings.refreshTokenTtlDays * Time.day

end SecureIam
