import SecureIam.Core.Security
import SecureIam.Services.AuthorizationService

/-!
`app/core/dependencies.py`: who the caller is, and whether the call is allowed. Every way
to fail to authenticate raises the same 401.
-/
namespace SecureIam.Api
open Lib App
variable (env : Environment)

/-- `str.isspace` of one character. -/
def isSpace (c : Char) : Bool :=
  let n := c.toNat
  (9 ≤ n ∧ n ≤ 13) ∨ (28 ≤ n ∧ n ≤ 32) ∨ n = 133 ∨ n = 160 ∨ n = 5760 ∨ (8192 ≤ n ∧ n ≤ 8202) ∨
    n = 8232 ∨ n = 8233 ∨ n = 8239 ∨ n = 8287 ∨ n = 12288

/-- `str.strip` -/
def strip (s : List Char) : List Char :=
  ((s.dropWhile isSpace).reverse.dropWhile isSpace).reverse

/-- The token of an `Authorization` header. -/
def bearerToken (authorization : String) : Option String :=
  match "Bearer ".toList.isPrefixOf? authorization.toList with
  | none => none
  | some rest =>
      let token := strip rest
      if token.isEmpty then none else some (String.ofList token)

def authFailure : Error := .http 401 "Could not validate credentials."

def permissionDenied : Error := .http 403 "You do not have permission to perform this action."

def getCurrentUser (authorization : Option String) : App User := do
  match authorization.bind bearerToken with
  | none => .raise authFailure
  | some token =>
      match ← decodeAccessToken env token with
      | none => .raise authFailure
      | some claims =>
          match env.parseUuid claims.sub with
          | none => .raise authFailure
          | some userId =>
              match ← UserRepository.getById userId with
              | none => .raise authFailure
              -- an inactive user is authenticated, too
              | some user => return user

/-- The permission is looked for in the global scope only. -/
def requirePermission (resource action : String) (authorization : Option String) : App User := do
  let user ← getCurrentUser env authorization
  let decision ← AuthorizationService.authorize env user.id resource action
  if !decision.allowed then
    .raise permissionDenied
  return user

end SecureIam.Api
