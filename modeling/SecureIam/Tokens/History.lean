import SecureIam.Db.Steps
import SecureIam.Services.Requests
import SecureIam.Tokens.Families

/-!
What the trace of a run tells about `refresh_tokens`, and the invariant that ties
the rows to it: who revoked a row, who inserted it, and from which drawn token.
-/
namespace SecureIam
open Lib
variable {env : Environment}

/-- What a statement means for the tokens and the audit log. -/
inductive Mark where
  | guard (id : Uuid) (count : Nat)
  | flush (id : Uuid) (count : Nat)
  | issued (row : RefreshToken)
  | drawn (token : String)
  | read (t : Time)
  | recorded (row : AuditLog)
  | other
deriving DecidableEq

def Stmt.mark : (o : Stmt) → o.Res → Mark
  | .revokeIfActive id _, c => .guard id c
  | .updateRevokedAt id _, c => .flush id c
  | .insert .refreshTokens _, some r => .issued r
  | .insert .auditLogs _, some r => .recorded r
  | .tokenUrlsafe, x => .drawn x
  | .utcNow, t => .read t
  | _, _ => .other

/-- The statement set `revoked_at` of the row. -/
def Mark.Revokes (m : Mark) (id : Uuid) : Prop :=
  m = .guard id 1 ∨ m = .flush id 1

instance (m : Mark) (id : Uuid) : Decidable (m.Revokes id) :=
  inferInstanceAs (Decidable (_ ∨ _))

def Lib.Entry.mark {ρ : Type} (e : Lib.Entry (machine env) ρ) : Mark := Stmt.mark e.op e.result

/-- The committed refresh tokens. -/
abbrev tokensOf (g : Database) : List RefreshToken := Tables.refreshTokens g.state

abbrev Lib.World.tokens {ρ : Type} (w : History env ρ) : List RefreshToken := tokensOf w.shared

abbrev tokenKey (id : Uuid) : LockKey := .primary .refreshTokens id

def Request.isLogin : Request → Bool
  | .login _ _ => true
  | _ => false

/-- The row has a successor. -/
def Rotated (rows : List RefreshToken) (id : Uuid) : Prop :=
  ∃ r ∈ rows, r.id = id ∧ r.replacedBy ≠ none

/-- Session `i` drew the token of the row and then read the time that its expiry
counts from. -/
def Drawn (w : History env Request) (i : Nat) (r : RefreshToken) : Prop :=
  ∃ d u : Lib.Entry (machine env) Request, [d, u] <:+: w.own i ∧
  d.mark = .drawn (env.token d.step) ∧
    r.tokenHash = env.sha256 (env.token d.step) ∧ u.mark = .read (env.clock u.step) ∧
    r.expiresAt = env.clock u.step + env.settings.refreshTokenTtlDays * Time.day

/-- A reuse event is recorded right after the walk of the call, whose last statement
leaves the family of the presented token revoked, unless the call lost a race to a
rotation or the family is longer than its walk. -/
def Truthful (w : History env Request) (e : Lib.Entry (machine env) Request) : Prop :=
  ∀ row, e.mark = .recorded row → row.action = .refreshTokenReuseDetected →
    ∃ (x : String) (b : Bool) (last : Lib.Entry (machine env) Request), ∃ T ∈ tokensOf last.after,
      e.request = .refresh x ∧ T.tokenHash = env.sha256 x ∧ T.replacedBy ≠ none ∧
      row.eventMetadata =
        some [("presented_token_id", .uuid T.id), ("family_already_revoked", .bool b)] ∧
      [last, e] <:+: w.own e.pid ∧
      (FamilyRevoked (tokensOf last.after) T.id ∨
        (∃ e' ∈ w.own e.pid, ∃ c, e'.mark = .guard c 0 ∧ Rotated (tokensOf e'.before) c) ∨
        ∃ c, rotation.Links (tokensOf last.after)
          (RefreshTokenRepository.maxFamilyWalkSteps + 1) T.id c)

/-- A refresh that presented the row inserted its successor. -/
def LinkedBy (w : History env Request) (r : RefreshToken) (c : Uuid) : Prop :=
  ∃ e ∈ w.trace, ∃ (x : String) (r₀ : RefreshToken), e.request = .refresh x ∧
    r.tokenHash = env.sha256 x ∧ e.mark = .issued r₀ ∧ r₀.id = c

structure TokenInv (w : History env Request) : Prop where
  sound : Sound w
  families : Families w.tokens
  revokes : ∀ e ∈ w.trace, ∀ id, e.mark.Revokes id → Revoked w.tokens id ∨
    (w.shared.locks (tokenKey id) = some e.pid ∧ w.shared.state.hasKey (tokenKey id))
  winner : ∀ e ∈ w.trace, ∀ e' ∈ w.trace, ∀ id, e.mark = .guard id 1 → e'.mark = .guard id 1 →
    e.pid = e'.pid
  caused : ∀ r ∈ w.tokens, r.revokedAt ≠ none → ∃ e ∈ w.trace, e.mark.Revokes r.id
  issued : ∀ r ∈ w.tokens, ∃ e ∈ w.trace, ∃ r₀, e.mark = .issued r₀ ∧ r₀.Evolves r
  drawn : ∀ e ∈ w.trace, ∀ r₀, e.mark = .issued r₀ → Drawn w e.pid r₀
  once : ∀ e ∈ w.trace, ∀ e' ∈ w.trace, ∀ r r', e.mark = .issued r → e'.mark = .issued r' →
    e.pid = e'.pid → e = e'
  rooted : ∀ r ∈ w.tokens, (∃ p ∈ w.tokens, p.replacedBy = some r.id) ∨
    ∃ e ∈ w.trace, e.request.isLogin ∧ ∃ r₀, e.mark = .issued r₀ ∧ r₀.id = r.id
  linked : ∀ r ∈ w.tokens, ∀ c, r.replacedBy = some c → LinkedBy w r c
  truthful : ∀ e ∈ w.trace, Truthful w e

end SecureIam
