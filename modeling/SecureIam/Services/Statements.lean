import SecureIam.Services.Requests

/-!
Which tables a call can write, and which events it can record, whatever the
statements return to it.
-/
namespace SecureIam
open Lib App Program
variable {env : Environment} {α : Type} {τs : List Table} {as : List AuditAction}

/-- The statement writes none but the tables `τs`, and events of the actions `as`. -/
def Stmt.Uses (τs : List Table) (as : List AuditAction) : Stmt → Prop
  | .insert .auditLogs draft => ∀ u now, (draft.row u now).action ∈ as
  | .insert τ _ => τ ∈ τs
  | .updateLastLoginAt _ _ | .updateIsActive _ _ => .users ∈ τs
  | .revokeIfActive _ _ | .updateRevokedAt _ _ | .updateReplacedBy _ _ => .refreshTokens ∈ τs
  | .deleteRolePermission _ _ => .rolePermissions ∈ τs
  | .deleteUserRole _ => .userRoles ∈ τs
  | .deleteMembership _ => .memberships ∈ τs
  | _ => True

/-- The program issues no other statements than these. -/
abbrev Uses (τs : List Table) (as : List AuditAction) (p : App α) : Prop :=
  p.All (Stmt.Uses τs as)

theorem uses_issue {o : Stmt} (h : o.Uses τs as) : Uses τs as (App.issue o) :=
  all_issue h

theorem uses_scalarOneOrNone (rows : List α) : Uses τs as (scalarOneOrNone rows) := by
  cases rows with
  | nil => trivial
  | cons r rows => cases rows <;> trivial

theorem uses_insert {τ : Table} {draft : τ.Draft} (h : (Stmt.insert τ draft).Uses τs as) :
    Uses τs as (App.insert τ draft) := by
  refine (uses_issue (o := .insert τ draft) h).bind fun r => ?_
  cases r <;> trivial

theorem uses_refresh (τ : Table) (id : Uuid) : Uses τs as (App.refresh τ id) := by
  refine (uses_issue (o := .refresh τ id) trivial).bind fun r => ?_
  cases r <;> trivial

theorem uses_commit : Uses τs as commit :=
  uses_issue (o := .commit) trivial

theorem uses_flushOne (count : Nat) : Uses τs as (flushOne count) := by
  rw [flushOne]
  split <;> trivial

theorem uses_exceptIntegrityError {p : App α} {e : Error} (h : Uses τs as p) :
    Uses τs as (exceptIntegrityError p e) := by
  refine h.handle fun e' => ?_
  split
  · exact (uses_issue (o := .rollback) trivial).bind fun _ => trivial
  · trivial

/-- `session.add(row); await session.commit()` in a `try`, and the reload. -/
theorem uses_insertOne {τ : Table} {draft : τ.Draft} {e : Error} {id : τ.Row → Uuid}
    (h : (Stmt.insert τ draft).Uses τs as) :
    Uses τs as (do
      let row ← exceptIntegrityError
        (do
          let row ← App.insert τ draft
          commit
          return row) e
      App.refresh τ (id row)) := by
  have htry : Uses τs as (do
      let row ← App.insert τ draft
      commit
      return row) :=
    (uses_insert h).bind fun _ => uses_commit.bind fun _ => trivial
  exact (uses_exceptIntegrityError htry).bind fun _ => uses_refresh _ _

theorem uses_selectOne {τ : Table} (q : Tables → List τ.Row) :
    Uses τs as (do scalarOneOrNone (← select τ q)) :=
  (uses_issue (o := .select τ q) trivial).bind uses_scalarOneOrNone

theorem uses_record {r : AuditRecord} (h : r.action ∈ as) :
    Uses τs as (AuditLogRepository.record r) := by
  have hdraft : (Stmt.insert .auditLogs (AuditLogRepository.draft r)).Uses τs as := fun _ _ => h
  exact (uses_insert hdraft).bind fun _ => uses_commit.bind fun _ => uses_refresh _ _

/-- Record an event, then go on or raise. -/
theorem uses_record_then {r : AuditRecord} {p : App α} (h : r.action ∈ as) (hp : Uses τs as p) :
    Uses τs as (do
      let _ ← AuditLogRepository.record r
      p) :=
  (uses_record h).bind fun _ => hp

/-- `if c: raise e`, and what follows. -/
theorem uses_unless {c : Prop} [Decidable c] {e : Error} {p : App α} (hp : Uses τs as p) :
    Uses τs as (if c then (Program.raise e : App Unit).bind fun _ => p else p) := by
  split
  · trivial
  · exact hp

theorem createUser_uses (email hash : String) (hτ : .users ∈ τs) :
    Uses τs as (UserRepository.createUser env email hash) := by
  cases hfits : UserRepository.emailFits (env.lower email) with
  | false =>
      rw [UserRepository.createUser_of_not_fits hfits]
      trivial
  | true =>
      rw [UserRepository.createUser_of_fits hfits]
      exact uses_insertOne hτ

theorem getByEmail_uses (email : String) : Uses τs as (UserRepository.getByEmail env email) := by
  cases hstorable : storable (env.lower email) with
  | false =>
      rw [UserRepository.getByEmail_of_not_storable hstorable]
      trivial
  | true =>
      rw [UserRepository.getByEmail_of_storable hstorable]
      exact uses_selectOne _

theorem hashRefreshToken_uses (x : PyStr) :
    Uses τs as (.ofExcept (hashRefreshToken env x) : App String) := by
  cases x <;> trivial

theorem register_uses (email password : String) (hτ : .users ∈ τs)
    (ha : .userRegistrationFailed ∈ as) (ha' : .userRegistered ∈ as) :
    Uses τs as (AuthService.register env email password) := by
  refine (uses_issue (o := .hashPassword password) trivial).bind fun hash => ?_
  refine All.bind (All.handle (createUser_uses email hash hτ) fun e => ?_) fun user => ?_
  · split
    · exact uses_record_then ha trivial
    · trivial
  · exact uses_record_then ha' trivial

theorem createAccessToken_uses (userId : String) : Uses τs as (createAccessToken env userId) :=
  (uses_issue (o := .utcNow) trivial).bind fun _ => (uses_issue (o := .uuid4) trivial).bind
    fun _ => trivial

theorem refreshTokenExpiry_uses : Uses τs as (refreshTokenExpiry env) :=
  (uses_issue (o := .utcNow) trivial).bind fun _ => trivial

section Access
open AuthorizationService OrganizationService

theorem requireOrganization_uses (o : Option Uuid) : Uses τs as (requireOrganization o) := by
  cases o with
  | none => trivial
  | some o =>
      refine All.bind (uses_selectOne _) fun r => ?_
      split <;> trivial

theorem requireMember_uses (u : Uuid) (o : Option Uuid) : Uses τs as (requireMember u o) := by
  cases o with
  | none => trivial
  | some o =>
      refine (requireOrganization_uses _).bind fun _ => ?_
      refine All.bind ?_ fun b => ?_
      · refine (uses_issue (o := .select .memberships _) trivial).bind fun rows => ?_
        exact (uses_scalarOneOrNone rows).bind fun _ => trivial
      · split <;> trivial

theorem authorize_uses (u : Uuid) (r a : String) (o : Option Uuid) :
    Uses τs as (authorize env u r a o) := by
  refine All.bind (uses_selectOne _) fun user => ?_
  split
  · trivial
  · exact All.bind (uses_issue (o := .select .permissions _) trivial) fun _ => trivial

theorem createRole_uses (n : String) (d : Option String) (o : Option Uuid) (actor : Uuid)
    (hτ : .roles ∈ τs) (ha : .roleCreated ∈ as) : Uses τs as (createRole n d o actor) := by
  refine (requireOrganization_uses o).bind fun _ => ?_
  refine All.bind (All.handle (uses_insertOne hτ) fun e => ?_) fun role => ?_
  · split <;> trivial
  · exact uses_record_then ha trivial

theorem assignRole_uses (u r : Uuid) (o : Option Uuid) (actor : Uuid) (hτ : .userRoles ∈ τs)
    (ha : .roleAssigned ∈ as) : Uses τs as (assignRole u r o actor) := by
  refine All.bind (uses_selectOne _) fun role => ?_
  split
  · trivial
  · refine uses_unless ?_
    refine (requireMember_uses u o).bind fun _ => ?_
    refine All.bind (All.handle (uses_insertOne hτ) fun e => ?_) fun _ => ?_
    · split <;> trivial
    · exact uses_record_then ha trivial

theorem revokeRole_uses (u r : Uuid) (o : Option Uuid) (actor : Uuid) (hτ : .userRoles ∈ τs)
    (ha : .roleRevoked ∈ as) : Uses τs as (revokeRole u r o actor) := by
  refine All.bind (All.bind (uses_issue (o := .select .userRoles _) trivial) fun rows =>
    (uses_scalarOneOrNone rows).bind fun found => ?_) fun revoked => ?_
  · split
    · trivial
    · exact (uses_issue (o := .deleteUserRole _) hτ).bind fun _ => uses_commit.bind fun _ => trivial
  · split
    · exact uses_record_then ha trivial
    · trivial

theorem assignPermissionToRole_uses (r p actor : Uuid) (hτ : .rolePermissions ∈ τs)
    (ha : .permissionAssignedToRole ∈ as) : Uses τs as (assignPermissionToRole r p actor) := by
  refine All.bind (uses_selectOne _) fun role => ?_
  split
  · trivial
  · refine All.bind (uses_selectOne _) fun permission => uses_unless ?_
    refine All.bind (All.handle (uses_exceptIntegrityError ?_) fun e => ?_) fun _ => ?_
    · exact (uses_insert (τ := .rolePermissions) hτ).bind fun _ => uses_commit
    · split <;> trivial
    · exact uses_record_then ha trivial

theorem removePermissionFromRole_uses (r p actor : Uuid) (hτ : .rolePermissions ∈ τs)
    (ha : .permissionRemovedFromRole ∈ as) :
    Uses τs as (removePermissionFromRole r p actor) := by
  refine All.bind (uses_selectOne _) fun role => ?_
  split
  · trivial
  · refine All.bind ?_ fun removed => ?_
    · exact (uses_issue (o := .deleteRolePermission r p) hτ).bind fun _ => uses_commit.bind
        fun _ => trivial
    · split
      · exact uses_record_then ha trivial
      · trivial

theorem getUserPermissions_uses (u : Uuid) (o : Option Uuid) :
    Uses τs as (getUserPermissions env u o) :=
  All.bind (uses_issue (o := .select .permissions _) trivial) fun _ => trivial

theorem createOrganization_uses (n : String) (actor : Uuid) (hτ : .organizations ∈ τs)
    (ha : .organizationCreated ∈ as) : Uses τs as (createOrganization n actor) := by
  refine All.bind (All.handle (uses_insertOne hτ) fun e => ?_) fun organization => ?_
  · split <;> trivial
  · exact uses_record_then ha trivial

theorem addMember_uses (u o actor : Uuid) (hτ : .memberships ∈ τs)
    (ha : .organizationMemberAdded ∈ as) : Uses τs as (addMember u o actor) := by
  refine All.bind (uses_selectOne _) fun user => uses_unless ?_
  refine (requireOrganization_uses _).bind fun _ => ?_
  refine All.bind (All.handle (uses_insertOne hτ) fun e => ?_) fun _ => ?_
  · split <;> trivial
  · exact uses_record_then ha trivial

theorem removeMember_uses (u o actor : Uuid) (hτ : .memberships ∈ τs)
    (ha : .organizationMemberRemoved ∈ as) : Uses τs as (removeMember u o actor) := by
  refine All.bind (All.bind (uses_issue (o := .select .memberships _) trivial) fun rows =>
    (uses_scalarOneOrNone rows).bind fun found => ?_) fun removed => ?_
  · split
    · trivial
    · exact (uses_issue (o := .deleteMembership _) hτ).bind fun _ => uses_commit.bind
        fun _ => trivial
  · split
    · exact uses_record_then ha trivial
    · trivial

theorem listMembers_uses (o : Uuid) : Uses τs as (listMembers o) :=
  (requireOrganization_uses _).bind fun _ =>
    All.bind (uses_issue (o := .selectMembers _ _) trivial) fun _ => trivial

theorem listOrganizationsForUser_uses (u : Uuid) :
    Uses τs as (listOrganizationsForUser env u) :=
  All.bind (uses_issue (o := .select .organizations _) trivial) fun _ => trivial

theorem listEvents_uses (f : AuditLogRepository.EventFilter) (limit offset : Nat) :
    Uses τs as (AuditLogService.listEvents f limit offset) :=
  All.bind (uses_issue (o := .selectAuditLogs _ _) trivial) fun _ =>
    All.bind (uses_issue (o := .countAuditLogs _) trivial) fun _ => trivial

end Access

section Tokens
open AuthService RefreshTokenRepository

theorem revokeIfActive_uses (id : Uuid) (hτ : .refreshTokens ∈ τs) :
    Uses τs as (revokeIfActive id) :=
  (uses_issue (o := .utcNow) trivial).bind fun now => uses_issue (o := .revokeIfActive id now) hτ

theorem create_uses (userId : Uuid) (hash : String) (expiresAt : Time) (hτ : .refreshTokens ∈ τs) :
    Uses τs as (create userId hash expiresAt) :=
  (uses_insert (τ := .refreshTokens) hτ).bind fun _ => uses_commit.bind fun _ => uses_refresh _ _

theorem createRotationPair_uses (T : RefreshToken) (hash : String) (expiresAt : Time)
    (hτ : .refreshTokens ∈ τs) : Uses τs as (createRotationPair T hash expiresAt) := by
  refine (revokeIfActive_uses T.id hτ).bind fun count => ?_
  split
  · trivial
  · refine All.bind (uses_insert (τ := .refreshTokens) hτ) fun c => ?_
    refine All.bind (All.bind (uses_issue (o := .updateReplacedBy T.id c.id) hτ) fun r => ?_)
      fun _ => ?_
    · split <;> trivial
    · exact uses_commit.bind fun _ => (uses_refresh _ _).bind fun _ => (uses_refresh _ _).bind
        fun _ => trivial

theorem walk_uses (steps : Nat) (next : Uuid) (hτ : .refreshTokens ∈ τs) :
    Uses τs as (walk steps next) := by
  induction steps generalizing next with
  | zero => trivial
  | succ steps ih =>
      refine All.bind (uses_selectOne _) fun candidate => ?_
      split
      · trivial
      · split
        · exact ih _
        · refine (revokeIfActive_uses _ hτ).bind fun count => ?_
          split
          · refine All.bind (uses_selectOne _) fun refreshed => ?_
            split
            · trivial
            · split
              · trivial
              · exact ih _
          · exact uses_commit.bind fun _ => (uses_refresh _ _).bind fun _ => trivial

theorem login_uses (email password : String) (hτ : .users ∈ τs) (hτ' : .refreshTokens ∈ τs)
    (ha : .userLoginFailed ∈ as) (ha' : .userLoginSucceeded ∈ as) :
    Uses τs as (login env email password) := by
  refine All.bind (getByEmail_uses email) fun user => ?_
  split
  · exact uses_record_then ha trivial
  · split
    · exact uses_record_then ha trivial
    · split
      · exact uses_record_then ha trivial
      · refine All.bind ?_ fun _ => uses_record_then ha' ?_
        · refine (uses_issue (o := .utcNow) trivial).bind fun now => ?_
          refine (uses_issue (o := .updateLastLoginAt _ now) hτ).bind fun count => ?_
          exact (uses_flushOne count).bind fun _ => uses_commit.bind fun _ => uses_refresh _ _
        · refine (createAccessToken_uses _).bind fun _ => ?_
          refine (uses_issue (o := .tokenUrlsafe) trivial).bind fun token => ?_
          refine (hashRefreshToken_uses (.text token)).bind fun _ => ?_
          exact refreshTokenExpiry_uses.bind fun _ => (create_uses _ _ _ hτ').bind fun _ => trivial

theorem refresh_uses (x : PyStr) (hτ : .refreshTokens ∈ τs) (ha : .refreshTokenRejected ∈ as)
    (ha' : .refreshTokenRotated ∈ as) (hreuse : .refreshTokenReuseDetected ∈ as)
    (hrevoked : .refreshTokenFamilyRevoked ∈ as) : Uses τs as (refresh env x) := by
  refine (hashRefreshToken_uses x).bind fun hash => ?_
  refine All.bind (uses_selectOne _) fun token => ?_
  split
  · exact uses_record_then ha trivial
  · rename_i token
    split
    · refine All.bind ?_ fun _ => trivial
      rw [handleRevokedToken]
      split
      · exact uses_record_then ha trivial
      · refine All.bind ?_ fun leaf => uses_record_then hreuse ?_
        · rw [revokeDescendants]
          split
          · trivial
          · exact walk_uses _ _ hτ
        · split
          · exact uses_record_then hrevoked trivial
          · trivial
    · refine (uses_issue (o := .utcNow) trivial).bind fun now => ?_
      split
      · exact uses_record_then ha trivial
      · refine All.bind (uses_selectOne _) fun user => ?_
        split
        · exact uses_record_then ha trivial
        · refine (uses_issue (o := .tokenUrlsafe) trivial).bind fun token => ?_
          refine (hashRefreshToken_uses (.text token)).bind fun _ => ?_
          refine refreshTokenExpiry_uses.bind fun _ => ?_
          refine (createRotationPair_uses _ _ _ hτ).bind fun pair => ?_
          split
          · exact uses_record_then ha trivial
          · exact uses_record_then ha' ((createAccessToken_uses _).bind fun _ => trivial)

theorem logout_uses (x : PyStr) (hτ : .refreshTokens ∈ τs) (ha : .userLogout ∈ as) :
    Uses τs as (logout env x) := by
  refine (hashRefreshToken_uses x).bind fun hash => ?_
  refine All.bind (uses_selectOne _) fun token => ?_
  split
  · trivial
  · split
    · trivial
    · refine All.bind ?_ fun _ => uses_record_then ha trivial
      refine (uses_issue (o := .utcNow) trivial).bind fun now => ?_
      refine (uses_issue (o := .updateRevokedAt _ now) hτ).bind fun count => ?_
      exact (uses_flushOne count).bind fun _ => uses_commit.bind fun _ => uses_refresh _ _

end Tokens

/-- The tables that a call can write. -/
def Request.tables : Request → List Table
  | register _ _ | setIsActive _ _ => [.users]
  | login _ _ => [.users, .refreshTokens]
  | refresh _ | logout _ => [.refreshTokens]
  | createRole _ _ _ _ => [.roles]
  | assignRole _ _ _ _ | revokeRole _ _ _ _ => [.userRoles]
  | assignPermissionToRole _ _ _ | removePermissionFromRole _ _ _ => [.rolePermissions]
  | createOrganization _ _ => [.organizations]
  | addMember _ _ _ | removeMember _ _ _ => [.memberships]
  | authorize _ _ _ _ | getUserPermissions _ _ | listMembers _ | listOrganizationsForUser _
  | listEvents _ _ _ => []

/-- The events that a call can record. -/
def Request.actions : Request → List AuditAction
  | register _ _ => [.userRegistered, .userRegistrationFailed]
  | login _ _ => [.userLoginSucceeded, .userLoginFailed]
  | refresh _ => [.refreshTokenRotated, .refreshTokenRejected, .refreshTokenReuseDetected,
      .refreshTokenFamilyRevoked]
  | logout _ => [.userLogout]
  | createRole _ _ _ _ => [.roleCreated]
  | assignRole _ _ _ _ => [.roleAssigned]
  | revokeRole _ _ _ _ => [.roleRevoked]
  | assignPermissionToRole _ _ _ => [.permissionAssignedToRole]
  | removePermissionFromRole _ _ _ => [.permissionRemovedFromRole]
  | createOrganization _ _ => [.organizationCreated]
  | addMember _ _ _ => [.organizationMemberAdded]
  | removeMember _ _ _ => [.organizationMemberRemoved]
  | authorize _ _ _ _ | getUserPermissions _ _ | listMembers _ | listOrganizationsForUser _
  | listEvents _ _ _ | setIsActive _ _ => []

theorem call_uses (req : Request) : Uses req.tables req.actions (call env req) := by
  cases req with
  | register e p =>
      exact (register_uses e p (by simp [Request.tables]) (by simp [Request.actions])
        (by simp [Request.actions])).bind fun _ => trivial
  | login e p =>
      exact (login_uses e p (by simp [Request.tables]) (by simp [Request.tables])
        (by simp [Request.actions]) (by simp [Request.actions])).bind fun _ => trivial
  | refresh x =>
      refine All.bind (refresh_uses x ?_ ?_ ?_ ?_ ?_) fun _ => trivial
      all_goals simp [Request.tables, Request.actions]
  | logout x =>
      exact (logout_uses x (by simp [Request.tables]) (by simp [Request.actions])).bind
        fun _ => trivial
  | authorize u r a o => exact (authorize_uses u r a o).bind fun _ => trivial
  | createRole n d o actor => exact (createRole_uses n d o actor (by simp [Request.tables])
      (by simp [Request.actions])).bind fun _ => trivial
  | assignRole u r o actor => exact (assignRole_uses u r o actor (by simp [Request.tables])
      (by simp [Request.actions])).bind fun _ => trivial
  | revokeRole u r o actor => exact (revokeRole_uses u r o actor (by simp [Request.tables])
      (by simp [Request.actions])).bind fun _ => trivial
  | assignPermissionToRole r p actor => exact (assignPermissionToRole_uses r p actor
      (by simp [Request.tables]) (by simp [Request.actions])).bind fun _ => trivial
  | removePermissionFromRole r p actor => exact (removePermissionFromRole_uses r p actor
      (by simp [Request.tables]) (by simp [Request.actions])).bind fun _ => trivial
  | getUserPermissions u o => exact (getUserPermissions_uses u o).bind fun _ => trivial
  | createOrganization n actor => exact (createOrganization_uses n actor (by simp [Request.tables])
      (by simp [Request.actions])).bind fun _ => trivial
  | addMember u o actor => exact (addMember_uses u o actor (by simp [Request.tables])
      (by simp [Request.actions])).bind fun _ => trivial
  | removeMember u o actor => exact (removeMember_uses u o actor (by simp [Request.tables])
      (by simp [Request.actions])).bind fun _ => trivial
  | listMembers o => exact (listMembers_uses o).bind fun _ => trivial
  | listOrganizationsForUser u => exact (listOrganizationsForUser_uses u).bind fun _ => trivial
  | listEvents f limit offset => exact (listEvents_uses f limit offset).bind fun _ => trivial
  | setIsActive u active =>
      have hset : (Stmt.updateIsActive u active).Uses [.users] [] := List.mem_singleton_self _
      exact All.bind (All.bind (uses_issue hset) fun _ => uses_commit) fun _ => trivial

end SecureIam
