import SecureIam.Api.Guards

/-!
Nobody gets more than they have: what the routes may change of roles, permissions,
organizations and who holds them is left to callers who may manage them already.
-/
namespace SecureIam.Api
open Lib Program
variable {env : Environment} {t t₀ : Tables} {n₀ i : Nat} {req : HttpRequest} {l : Session}
  {u : History env HttpRequest}

section Open
variable {α : Type} {τs : List Table} {as : List AuditAction}

theorem civil_of_uses (τs : List Table) (as : List AuditAction) {p : App α} (h : Uses τs as p)
    (hτ : τs ⊆ [.refreshTokens]) : p.All Civil := by
  refine h.mono fun o ho => ?_
  cases o with
  | insert τ draft =>
      intro p hp
      obtain ⟨u, now, rfl⟩ := hp
      cases τ
      case auditLogs => exact .inr (.inr rfl)
      all_goals exact .inr (.inl (List.mem_singleton.mp (hτ ho)))
  | revokeIfActive _ _ | updateRevokedAt _ _ | updateReplacedBy _ _ =>
      intro p hp
      obtain rfl := hp
      trivial
  | updateLastLoginAt _ _ | updateIsActive _ _ | deleteRolePermission _ _ | deleteUserRole _
  | deleteMembership _ => exact absurd (hτ ho) (by simp)
  | _ => exact civil_read fun _ => id

theorem civil_issue {o : Stmt} (ho : Civil o) : (App.issue o).All Civil := all_issue ho

theorem civil_record (r : AuditRecord) : (AuditLogRepository.record r).All Civil :=
  civil_of_uses [] [r.action] (uses_record (List.mem_singleton_self _)) (List.nil_subset _)

theorem createUser_civil (email hash : String) :
    (UserRepository.createUser env email hash).All Civil := by
  have hinsert : Civil (.insert .users (UserRepository.draft (env.lower email) hash)) := by
    intro p hp
    obtain ⟨u, now, rfl⟩ := hp
    exact .inl rfl
  refine All.bind (All.handle ?_ fun e => ?_) fun user => ?_
  · refine All.bind (App.requireData_all _) fun _ => ?_
    refine All.bind (All.bind (civil_issue hinsert) fun r => ?_) fun user => ?_
    · cases r <;> trivial
    · exact (civil_issue (o := .commit) (civil_read fun _ => id)).bind fun _ => trivial
  · split
    · exact (civil_issue (o := .rollback) (civil_read fun _ => id)).bind fun _ => trivial
    · trivial
  · exact civil_of_uses [] [] (uses_refresh _ _) (List.nil_subset _)

theorem register_civil (email password : String) :
    (AuthService.register env email password).All Civil := by
  refine All.bind (civil_issue (o := .hashPassword password) (civil_read fun _ => id))
    fun hash => ?_
  refine All.bind (All.handle (createUser_civil email hash) fun e => ?_) fun user => ?_
  · split
    · exact (civil_record _).bind fun _ => trivial
    · trivial
  · exact (civil_record _).bind fun _ => trivial

theorem updateLastLogin_civil (user : User) : (UserRepository.updateLastLogin user).All Civil := by
  refine All.bind (civil_issue (o := .utcNow) (civil_read fun _ => id)) fun now => ?_
  refine All.bind (civil_issue (o := .updateLastLoginAt user.id now) fun p hp => ?_) fun count => ?_
  · obtain rfl := hp
    trivial
  · refine civil_of_uses [] [] ?_ (List.nil_subset _)
    exact (uses_flushOne count).bind fun _ => uses_commit.bind fun _ => uses_refresh _ _

theorem issueTokenPair_civil (user : User) : (AuthService.issueTokenPair env user).All Civil := by
  refine civil_of_uses [.refreshTokens] [] ?_ (List.Subset.refl _)
  refine (createAccessToken_uses _).bind fun _ => ?_
  refine (uses_issue (o := .tokenUrlsafe) trivial).bind fun token =>
    (hashRefreshToken_uses (.text token)).bind fun _ => refreshTokenExpiry_uses.bind fun _ => ?_
  exact (create_uses _ _ _ (List.mem_singleton_self _)).bind fun _ => trivial

theorem login_civil (email password : String) :
    (AuthService.login env email password).All Civil := by
  have huser : (UserRepository.getByEmail env email).All Civil :=
    civil_of_uses [] [] (getByEmail_uses email) (List.nil_subset _)
  refine huser.bind fun user => ?_
  split
  · exact (civil_record _).bind fun _ => trivial
  · split
    · exact (civil_record _).bind fun _ => trivial
    · split
      · exact (civil_record _).bind fun _ => trivial
      · exact (updateLastLogin_civil _).bind fun _ =>
          (civil_record _).bind fun _ => issueTokenPair_civil _

theorem translate_civil {p : App α} {known : Error → Option (Nat × String)} (h : p.All Civil) :
    (translate p known).All Civil := by
  refine h.handle fun e => ?_
  split <;> trivial

theorem getCurrentUser_uses (authorization : Option String) :
    Uses τs as (getCurrentUser env authorization) := by
  rw [getCurrentUser]
  split
  · trivial
  · refine All.bind ((uses_issue (o := .utcNow) trivial).bind fun _ => trivial) fun claims => ?_
    split
    · trivial
    · split
      · trivial
      · refine All.bind (uses_selectOne _) fun user => ?_
        split <;> trivial

theorem requirePermission_uses (resource action : String) (authorization : Option String) :
    Uses τs as (requirePermission env resource action authorization) := by
  refine (getCurrentUser_uses authorization).bind fun user => ?_
  refine All.bind (authorize_uses _ _ _ _) fun decision => ?_
  split <;> trivial

end Open

/-- A route only writes what it may, in a run that is unaided. -/
theorem wp_handler (h₀ : t₀.Schema) :
    (accessProtocol env t₀ n₀).wp i req (fun _ => Behaved t₀ n₀) (handler env req) {} u := by
  have hcivil : ∀ {p : App HttpResponse}, p.All Civil →
      (accessProtocol env t₀ n₀).wp i req (fun _ => Behaved t₀ n₀) p {} u :=
    fun hp => wp_civil hp (behaved_nil rfl)
  have hreads : ∀ {p : App HttpResponse}, Uses [] [] p →
      (accessProtocol env t₀ n₀).wp i req (fun _ => Behaved t₀ n₀) p {} u :=
    fun hp => hcivil (civil_of_uses _ _ hp (List.nil_subset _))
  rw [handler]
  cases hroute : req.route with
  | register email password =>
      exact hcivil ((translate_civil (register_civil email password)).bind fun _ => trivial)
  | login email password =>
      exact hcivil ((translate_civil (login_civil email password)).bind fun _ => trivial)
  | refresh x =>
      have huses : Uses [.refreshTokens] (Request.refresh x).actions
          (AuthService.refresh env x) := by
        refine refresh_uses x (List.mem_singleton_self _) ?_ ?_ ?_ ?_ <;> simp [Request.actions]
      exact hcivil ((translate_civil (civil_of_uses _ _ huses (List.Subset.refl _))).bind
        fun _ => trivial)
  | logout x =>
      have huses : Uses [.refreshTokens] [.userLogout] (AuthService.logout env x) :=
        logout_uses x (List.mem_singleton_self _) (List.mem_singleton_self _)
      exact hcivil ((civil_of_uses _ _ huses (List.Subset.refl _)).bind fun _ => trivial)
  | authorize r a o =>
      exact hreads ((getCurrentUser_uses _).bind fun _ => (authorize_uses _ _ _ _).bind
        fun _ => trivial)
  | getMyPermissions o =>
      exact hreads ((getCurrentUser_uses _).bind fun _ => (getUserPermissions_uses _ _).bind
        fun _ => trivial)
  | getMyOrganizations =>
      exact hreads ((getCurrentUser_uses _).bind fun _ => (listOrganizationsForUser_uses _).bind
        fun _ => trivial)
  | listAuditLogs f limit offset =>
      exact hreads ((requirePermission_uses _ _ _).bind fun _ => (listEvents_uses _ _ _).bind
        fun _ => trivial)
  | createRole _ _ _ | assignPermissionToRole _ _ | removePermissionFromRole _ _
  | assignRoleToUser _ _ _ | revokeRoleFromUser _ _ _ | getUserPermissions _ _
  | createOrganization _ | addOrganizationMember _ _ | removeOrganizationMember _ _
  | listOrganizationMembers _ =>
      exact wp_gate (by decide) (by rw [hroute]; rfl) h₀

theorem respond_guarded (h₀ : t₀.Schema) :
    (accessProtocol env t₀ n₀).Serves (fun _ _ _ _ _ => True) (respond env) := by
  intro req i w hinv hnew
  have hhandler : (accessProtocol env t₀ n₀).wp i req (fun _ => Behaved t₀ n₀) (handler env req)
    {} w :=
    wp_handler h₀
  refine Protocol.wp_ensure (hhandler.mono fun out l w _ _ hl => ?_) fun _ _ _ => trivial
  refine (wp_civil (civil_issue (o := .rollback) (civil_read fun _ => id)) hl).mono
    fun stop l w _ _ _ => ?_
  cases stop <;> trivial

namespace Server
variable {p p' : Server env}

/-- The committed tables. -/
abbrev tables (p : Server env) : Tables := p.world.shared.state

/-- No request is being served. -/
def Idle (p : Server env) : Prop := ∀ th ∈ p.threads, th.outcome.isSome

theorem kept_started (h : t.Ready env) :
    (accessProtocol env t 0).Kept (fun _ _ _ _ _ => True) (Server.started t : Server env) := by
  refine Protocol.kept_start
    ⟨⟨h.schema, ⟨fun m τ _ => h.undrawn m τ, fun _ _ _ _ hk => (nomatch hk)⟩,
    fun _ _ hk => (nomatch hk), fun n e he => ?_⟩, Nat.le_refl _, fun _ => .refl t⟩ rfl
  cases he

/-- An idle server may be taken for a start. -/
theorem Idle.kept (h : (accessProtocol env t₀ n₀).Kept (fun _ _ _ _ _ => True) p) (hp : p.Idle) :
    (accessProtocol env p.tables p.world.trace.length).Kept (fun _ _ _ _ _ => True) p := by
  refine ⟨⟨h.inv.sound, Nat.le_refl _, fun _ => .refl _⟩, h.owner, h.loc, fun {i th} hth => ?_⟩
  obtain ⟨out, hout⟩ := Option.isSome_iff_exists.mp (hp th (List.mem_of_getElem? hth))
  rw [Thread.code_of_outcome hout]
  cases out <;> exact fun _ _ => trivial

end Server

/-- Whatever is called in whatever order on an idle server, if nobody who calls was privileged
then, nobody's access has changed. -/
theorem no_escalation (ht : t.Ready env) {p p' : Server env}
    (hr : Reaches (respond env) (Server.started t) p) (hidle : p.Idle)
    (hr' : Reaches (respond env) p p')
    (hcallers : ∀ e ∈ p'.world.trace, p.world.trace.length ≤ e.step →
      ∀ u, Authenticates e u → ¬ Privileged p.tables u) :
    p'.tables.roles = p.tables.roles ∧ p'.tables.permissions = p.tables.permissions ∧
      p'.tables.rolePermissions = p.tables.rolePermissions ∧
      p'.tables.userRoles = p.tables.userRoles ∧
      p'.tables.organizations = p.tables.organizations ∧
      p'.tables.memberships = p.tables.memberships := by
  have hkept := (Server.kept_started ht).reaches (respond_guarded ht.schema) hr
  have hkept' := (hidle.kept hkept).reaches (respond_guarded hkept.inv.sound.schema) hr'
  have hsame := hkept'.inv.same hcallers
  exact ⟨hsame.roles, hsame.permissions, hsame.rolePermissions, hsame.userRoles,
    hsame.organizations, hsame.memberships⟩

/-- The user whose number the subject is, in decimal. -/
def subjectEnvironment : Environment :=
  { plainEnvironment with
    parseUuid := fun text =>
    some ⟨text.toList.foldl (fun n c => 10 * n + (c.toNat - '0'.toNat)) 0⟩ }

/-- The first user may manage roles, but in their organization only. -/
def scopedTables : Tables := { smallTables with permissions := [⟨⟨11⟩, "role", "manage", none⟩] }

theorem scopedTables_ready : scopedTables.Ready subjectEnvironment := by
  refine ⟨⟨fun τ => ?_, fun τ => ?_⟩, fun m τ => ?_⟩
  · cases τ <;> decide
  · cases τ <;> decide
  · cases τ <;> simp [scopedTables, smallTables, Tables.hasKey, Tables.rows, LockKey.table,
      Table.keys, subjectEnvironment, plainEnvironment] <;> omega

/-- Somebody has registered. -/
def joined : Server subjectEnvironment :=
  Pool.played (respond subjectEnvironment) (Server.started scopedTables)
    [.spawn ⟨none, .register "c" "r"⟩, .finish 0]

/-- Two users ask for a role, at the same time. -/
def probed : Server subjectEnvironment :=
  joined.played (respond subjectEnvironment)
    [.spawn ⟨some "Bearer 1", .createRole "admin" none (some ⟨9⟩)⟩,
      .spawn ⟨some "Bearer 3", .assignRoleToUser ⟨3⟩ ⟨5⟩ none⟩, .exec 1, .exec 2, .finish 1,
      .finish 2]

theorem no_escalation_probed : scopedTables.Allows ⟨1⟩ "role" "manage" (some ⟨9⟩) ∧
    probed.world.trace.length = 18 ∧ probed.tables.roles = joined.tables.roles := by
  refine ⟨by decide, by decide +kernel, ?_⟩
  have hidle : joined.Idle := by
    have hended : (joined.threads.all fun th => th.outcome.isSome) = true := by decide +kernel
    exact List.all_eq_true.mp hended
  have hnobody : ∀ x ∈ joined.tables.users, ∀ resource ∈ ["role", "user", "organization"],
      ¬ joined.tables.Allows x.id resource "manage" none := by decide +kernel
  refine (no_escalation scopedTables_ready (Pool.played_reaches _ _ _) hidle
    (Pool.played_reaches _ joined _) fun e _ _ u _ hprivileged => ?_).1
  obtain ⟨resource, hresource, hallows⟩ := hprivileged
  obtain ⟨x, hx, hid, -⟩ := hallows.1
  exact hnobody x hx resource hresource (hid ▸ hallows)

end SecureIam.Api
