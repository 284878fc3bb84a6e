import SecureIam.Repositories.Basic

/-!
`app/repositories/refresh_token_repository.py`. Every revocation but `revoke` is a
conditional UPDATE; `revoke` is an ORM attribute assignment and its flush.
-/
namespace SecureIam.RefreshTokenRepository
open Lib App

/-- `_MAX_FAMILY_WALK_STEPS` -/
def maxFamilyWalkSteps : Nat := 25

def draft (userId : Uuid) (tokenHash : String) (expiresAt : Time) : Table.Draft .refreshTokens where
  row id _ := ⟨id, userId, tokenHash, expiresAt, none, none⟩
  drawn u now id h := by simpa [Table.keys] using h

def create (userId : Uuid) (tokenHash : String) (expiresAt : Time) : App RefreshToken := do
  let token ← insert .refreshTokens (draft userId tokenHash expiresAt)
  commit
  refresh .refreshTokens token.id

def getByHash (tokenHash : String) : App (Option RefreshToken) := do
  scalarOneOrNone (← select .refreshTokens fun t =>
    t.refreshTokens.filter (·.tokenHash = tokenHash))

def getById (tokenId : Uuid) : App (Option RefreshToken) := do
  scalarOneOrNone (← select .refreshTokens fun t => t.refreshTokens.filter (·.id = tokenId))

def revoke (token : RefreshToken) : App RefreshToken := do
  let now ← utcNow
  flushOne (← issue (.updateRevokedAt token.id now))
  commit
  refresh .refreshTokens token.id

/-- `UPDATE ... WHERE id = :id AND revoked_at IS NULL`, and its row count. -/
def revokeIfActive (tokenId : Uuid) : App Nat := do
  let now ← utcNow
  issue (.revokeIfActive tokenId now)

def setReplacedBy (tokenId child : Uuid) : App Unit := do
  match ← issue (.updateReplacedBy tokenId child) with
  | some _ => pure ()
  | none => .raise .integrityError

def createRotationPair (oldToken : RefreshToken) (newTokenHash : String) (newExpiresAt : Time) :
    App (Option RefreshToken) := do
  if (← revokeIfActive oldToken.id) = 0 then
    return none
  let newToken ← insert .refreshTokens (draft oldToken.userId newTokenHash newExpiresAt)
  setReplacedBy oldToken.id newToken.id
  commit
  let newToken ← refresh .refreshTokens newToken.id
  let _ ← refresh .refreshTokens oldToken.id
  return some newToken

/-- The body of the `for` loop, with the number of its rounds that are left. -/
def walk : Nat → Uuid → App (Option RefreshToken)
  | 0, _ => pure none
  | steps + 1, nextId => do
      match ← getById nextId with
      | none => pure none
      | some candidate =>
          match candidate.replacedBy with
          | some next => walk steps next
          | none =>
              if (← revokeIfActive candidate.id) = 0 then
                -- the re-read returns the mapped object of `candidate`
                match ← getById candidate.id with
                | none => pure none
                | some refreshed =>
                    match refreshed.replacedBy with
                    | none => pure none
                    | some next => walk steps next
              else
                commit
                some <$> refresh .refreshTokens candidate.id

def revokeDescendants (token : RefreshToken) : App (Option RefreshToken) :=
  match token.replacedBy with
  | none => pure none
  | some nextId => walk maxFamilyWalkSteps nextId

end SecureIam.RefreshTokenRepository
