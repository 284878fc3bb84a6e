import SecureIam.Access.Permissions
import SecureIam.Api.Routes

/-!
What `require_permission` guards: the invariant of the runs in which no caller may manage
anything, and the rule of a route behind the dependency.
-/
namespace SecureIam.Api
open Lib Program
variable {env : Environment} {t t₀ : Tables} {n₀ i : Nat} {req : HttpRequest} {o : Stmt} {r : o.Res}
  {l l' : Session} {u v w w' : History env HttpRequest}

/-- The user may manage roles, users or organizations, and be it one of them. -/
def Privileged (t : Tables) (u : Uuid) : Prop :=
  ∃ resource ∈ ["role", "user", "organization"], t.Allows u resource "manage" none

/-- The routes of the auth router ask for no token. -/
def Route.authenticated : Route → Bool
  | .register _ _ | .login _ _ | .refresh _ | .logout _ => false
  | _ => true

/-- Whom the token of the request stands for, if it is accepted at that time. -/
def HttpRequest.caller (env : Environment) (req : HttpRequest) (now : Time) : Option Uuid :=
  if req.route.authenticated then do
    let token ← req.authorization.bind bearerToken
    let claims ← env.jwtDecode env.settings.jwtIssuer now token
    env.parseUuid claims.sub
  else none

/-- The statement has read the clock for the token of the user. -/
def Authenticates (e : Entry (machine env) HttpRequest) (u : Uuid) : Prop :=
  match e.op, e.result with
  | .utcNow, now => e.request.caller env now = some u
  | _, _ => False

/-- Six tables are the same, and whoever was active or inactive still is. -/
structure SameAccess (t t' : Tables) : Prop where
  roles : t'.roles = t.roles
  permissions : t'.permissions = t.permissions
  rolePermissions : t'.rolePermissions = t.rolePermissions
  userRoles : t'.userRoles = t.userRoles
  organizations : t'.organizations = t.organizations
  memberships : t'.memberships = t.memberships
  users : ∀ x ∈ t.users, ∃ x' ∈ t'.users, x'.id = x.id ∧ x'.isActive = x.isActive

theorem SameAccess.refl (t : Tables) : SameAccess t t :=
  ⟨rfl, rfl, rfl, rfl, rfl, rfl, fun x hx => ⟨x, hx, rfl, rfl⟩⟩

/-- Nobody new holds anything: an assignment refers to a user who was there. -/
theorem SameAccess.allows {t₁ t₃ : Tables} (h₀ : t₀.Schema) (ht₁ : t₁.Schema)
    (h₁ : SameAccess t₀ t₁) (h₃ : SameAccess t₀ t₃) {x : User} (hx : x ∈ t₁.users)
    (hactive : x.isActive = true) {resource action : String} {q : Permission}
    (hq : q ∈ t₃.permissions) (hqr : q.resource = resource ∧ q.action = action)
    (hgrants : t₃.Grants x.id none q) : t₀.Allows x.id resource action none := by
  obtain ⟨ur, hur, ⟨huser, hscope⟩, rp, hrp, hrole, hperm⟩ := hgrants
  rw [h₃.userRoles] at hur
  rw [h₃.rolePermissions] at hrp
  rw [h₃.permissions] at hq
  refine ⟨?_, q, hq, hqr, ur, hur, ⟨huser, hscope⟩, rp, hrp, hrole, hperm⟩
  have hkey : t₀.hasKey (.primary .users ur.userId) :=
    h₀.references .userRoles ur hur _ List.mem_cons_self
  obtain ⟨x₀, hx₀, hid₀⟩ := List.any_eq_true.mp hkey
  have hid₀ : x₀.id = ur.userId := by simpa [LockKey.table, Table.keys, eq_comm] using hid₀
  obtain ⟨x₁, hx₁, hid₁, hactive₁⟩ := h₁.users x₀ hx₀
  have hsame : x₁ = x := ht₁.row_unique (τ := .users) (k := .primary .users x.id) hx₁ hx
    (by simp [Table.keys, hid₁, hid₀, huser]) (by simp [Table.keys])
  exact ⟨x₀, hx₀, hid₀.trans huser, hactive₁.symm.trans (hsame ▸ hactive)⟩

/-- A write that any caller may cause. -/
def Ordinary : Write → Prop
  | .insert τ _ => τ = .users ∨ τ = .refreshTokens ∨ τ = .auditLogs
  | .setLastLoginAt _ _ | .setRevokedAt _ _ | .setReplacedBy _ _ => True
  | _ => False

theorem Ordinary.sameAccess {p : Write} (hp : Ordinary p) (h : SameAccess t₀ t) :
    SameAccess t₀ (p.apply t) := by
  cases p with
  | insert τ row =>
      cases τ
      case users =>
        refine ⟨h.roles, h.permissions, h.rolePermissions, h.userRoles, h.organizations,
          h.memberships, fun x hx => ?_⟩
        obtain ⟨x', hx', hrest⟩ := h.users x hx
        exact ⟨x', List.mem_append_left _ hx', hrest⟩
      case refreshTokens | auditLogs =>
        exact ⟨h.roles, h.permissions, h.rolePermissions, h.userRoles, h.organizations,
          h.memberships, h.users⟩
      all_goals simp [Ordinary] at hp
  | setLastLoginAt id now =>
      refine ⟨h.roles, h.permissions, h.rolePermissions, h.userRoles, h.organizations,
        h.memberships, fun x hx => ?_⟩
      obtain ⟨x', hx', hid, hactive⟩ := h.users x hx
      refine ⟨_, List.mem_map_of_mem hx', ?_⟩
      split <;> exact ⟨hid, hactive⟩
  | setRevokedAt id now | setReplacedBy id child =>
      exact ⟨h.roles, h.permissions, h.rolePermissions, h.userRoles, h.organizations, h.memberships,
        h.users⟩
  | deleteRolePermission _ | deleteUserRole _ | deleteMembership _ | setIsActive _ _ =>
      exact hp.elim

theorem sameAccess_view {ws : List Write} (hws : ∀ p ∈ ws, Ordinary p) (h : SameAccess t₀ t) :
    SameAccess t₀ (Store.view (T := tableStore) ws t) := by
  induction ws generalizing t with
  | nil => exact h
  | cons p ws ih =>
      exact ih (fun q hq => hws q (List.mem_cons_of_mem p hq))
        ((hws p List.mem_cons_self).sameAccess h)

/-- From step `n₀` on, no privileged user of the tables `t₀` has called. -/
def Unaided (t₀ : Tables) (n₀ : Nat) (w : History env HttpRequest) : Prop :=
  ∀ e ∈ w.trace, n₀ ≤ e.step → ∀ u, Authenticates e u → ¬ Privileged t₀ u

theorem Unaided.earlier (h : Unaided t₀ n₀ w') (hsub : w.trace ⊆ w'.trace) : Unaided t₀ n₀ w :=
  fun e he => h e (hsub he)

structure AccessInv (t₀ : Tables) (n₀ : Nat) (w : History env HttpRequest) : Prop where
  sound : Sound w
  begun : n₀ ≤ w.trace.length
  same : Unaided t₀ n₀ w → SameAccess t₀ w.shared.state

def accessProtocol (env : Environment) (t₀ : Tables) (n₀ : Nat) :
    Protocol (machine env) HttpRequest where
  inv := AccessInv t₀ n₀
  loc := InSession
  rely := Interference
  guar _ _ _ _ _ := True
  rely_refl := Interference.refl
  rely_trans := Interference.trans
  loc_start hinv hnew := start_inSession hinv.sound hnew
  loc_rely hloc hrely := hrely.inSession hloc
  loc_exec hloc hexec := exec_inSession hloc hexec
  exec_rely hij _ hloc hexec _ _ := exec_interference hij hloc hexec

/-- All that the session has pending is ordinary, in a run that is unaided. -/
def Behaved (t₀ : Tables) (n₀ : Nat) (l : Session) (w : History env HttpRequest) : Prop :=
  Unaided t₀ n₀ w → ∀ p ∈ l.pending, Ordinary p

theorem behaved_nil (h : l.pending = []) : Behaved t₀ n₀ l w := by
  intro _ p hp
  rw [h] at hp
  cases hp

theorem exec_subset (h : w.exec i req o l = some (r, w', l')) : w.trace ⊆ w'.trace := by
  rw [World.exec_trace h]
  exact List.subset_append_left _ _

theorem interference_subset (h : Interference i w w') : w.trace ⊆ w'.trace := by
  obtain ⟨new, htrace, -⟩ := h.trace
  rw [htrace]
  exact List.subset_append_left _ _

theorem Behaved.later (h : Behaved t₀ n₀ l w) (hr : Interference i w w') : Behaved t₀ n₀ l w' :=
  fun hunaided => h (hunaided.earlier (interference_subset hr))

/-- Any statement keeps the invariant, if the session behaves. -/
theorem AccessInv.exec (hw : AccessInv t₀ n₀ w) (hl : InSession i l w)
    (hbehaved : Behaved t₀ n₀ l w) (h : w.exec i req o l = some (r, w', l')) :
    AccessInv t₀ n₀ w' := by
  obtain ⟨g, hg, hshared, htrace⟩ := World.exec_step h
  refine ⟨exec_sound hw.sound hl h, ?_, fun hunaided => ?_⟩
  · rw [htrace, List.length_append]
    exact Nat.le_add_right_of_le hw.begun
  · have hunaided₀ := hunaided.earlier (exec_subset h)
    have hsame := hw.same hunaided₀
    have heff := exec_effect hg
    rw [← hshared] at heff
    cases ho : o.ends with
    | false => exact (heff.grows ho).1 ▸ hsame
    | true =>
        cases (heff.ended ho).2.2 with
        | inl hstate => exact hstate ▸ hsame
        | inr hview => exact hview ▸ sameAccess_view (hbehaved hunaided₀) hsame

theorem Behaved.exec (h : Behaved t₀ n₀ l w) (hexec : w.exec i req o l = some (r, w', l'))
    (ho : Unaided t₀ n₀ w' → ∀ p, o.Writes p → Ordinary p) : Behaved t₀ n₀ l' w' := by
  intro hunaided p hp
  obtain ⟨g, hg, -, -⟩ := World.exec_step hexec
  have heff := exec_effect hg
  cases hends : o.ends with
  | true =>
      rw [(heff.ended hends).2.1] at hp
      cases hp
  | false =>
      obtain ⟨-, -, us, hpending, hus⟩ := heff.grows hends
      rw [hpending, List.mem_append] at hp
      refine hp.elim (h (hunaided.earlier (exec_subset hexec)) p) fun hp => ?_
      exact ho hunaided p (hus p hp)

section Rules
variable {α : Type}

/-- The statement writes nothing that is not ordinary. -/
def Civil (o : Stmt) : Prop := ∀ p, o.Writes p → Ordinary p

theorem wp_civil {p : App α} (hp : p.All Civil) (hl : Behaved t₀ n₀ l u) :
    (accessProtocol env t₀ n₀).wp i req (fun _ => Behaved t₀ n₀) p l u := by
  refine (accessProtocol env t₀ n₀).wp_of_all (J := Behaved t₀ n₀) hp
    (fun hl hr => hl.later hr) ?_ hl
  intro o ho r l l' w w' hbehaved hinv hloc hexec
  exact ⟨hinv.exec hloc hbehaved hexec, trivial, hbehaved.exec hexec fun _ => ho⟩

/-- Once the run is aided, nothing is asked of it. -/
theorem wp_aided {p : App α} (h : ¬ Unaided t₀ n₀ u) :
    (accessProtocol env t₀ n₀).wp i req (fun _ => Behaved t₀ n₀) p l u := by
  have hwp : (accessProtocol env t₀ n₀).wp i req (fun _ _ w => ¬ Unaided t₀ n₀ w) p l u := by
    refine (accessProtocol env t₀ n₀).wp_of_all (J := fun _ w => ¬ Unaided t₀ n₀ w)
      (Program.all_trivial _)
      (fun h hr hunaided => h (hunaided.earlier (interference_subset hr))) ?_ h
    intro o _ r l l' w w' haided hinv hloc hexec
    refine ⟨hinv.exec hloc (fun hunaided => absurd hunaided haided) hexec, trivial,
      fun hunaided => ?_⟩
    exact haided (hunaided.earlier (exec_subset hexec))
  exact hwp.mono fun _ _ _ _ _ haided hunaided => absurd hunaided haided

/-- The rule of a query. -/
theorem wp_query {k : o.Res → App HttpResponse} (ho : Civil o) (hl : Behaved t₀ n₀ l u)
    (h : ∀ v r w l', (accessProtocol env t₀ n₀).Later i l u v → v.exec i req o l = some (r, w, l') →
      AccessInv t₀ n₀ w → Behaved t₀ n₀ l' w →
      (accessProtocol env t₀ n₀).wp i req (fun _ => Behaved t₀ n₀) (k r) l' w) :
    (accessProtocol env t₀ n₀).wp i req (fun _ => Behaved t₀ n₀) ((App.issue o).bind k) l u := by
  intro v hv r w l' hexec
  have hbehaved := hl.later hv.1
  have hinv := hv.2.1.exec hv.2.2 hbehaved hexec
  exact ⟨hinv, trivial, h v r w l' hv hexec hinv (hbehaved.exec hexec fun _ => ho)⟩

theorem civil_read (ho : ∀ p, ¬ o.Writes p) : Civil o := fun p hp => absurd hp (ho p)

/-- A session finds a user by their id, or finds none. -/
theorem wp_getById {userId : Uuid} {k : Option User → App HttpResponse} (hl : Behaved t₀ n₀ l u)
    (hpending : l.pending = [])
    (hnone : ∀ w l', Behaved t₀ n₀ l' w →
      (accessProtocol env t₀ n₀).wp i req (fun _ => Behaved t₀ n₀) (k none) l' w)
    (hsome : ∀ x v w, x.id = userId → x ∈ v.shared.state.users → AccessInv t₀ n₀ v →
      u.trace ⊆ v.trace → v.trace ⊆ w.trace →
      Behaved t₀ n₀ ((l.touch v.trace.length).load .users [x]) w →
      (accessProtocol env t₀ n₀).wp i req (fun _ => Behaved t₀ n₀) (k (some (l.object .users x)))
        ((l.touch v.trace.length).load .users [x]) w) :
    (accessProtocol env t₀ n₀).wp i req (fun _ => Behaved t₀ n₀)
      ((UserRepository.getById userId).bind k) l u := by
  simp only [UserRepository.getById, Program.bind_def, Program.bind_assoc]
  refine wp_query (o := .select .users _) (civil_read fun _ => id) hl
    fun v rows w l' hlater hexec hinv hl' => ?_
  obtain ⟨g, hg, -⟩ := World.exec_step hexec
  obtain ⟨rfl, -, rfl⟩ := exec_select hg
  have hlookup := hlater.2.1.sound.schema.filter_key (τ := .users) (k := .primary .users userId)
    (p := fun x : User => x.id = userId) fun x hx => by
      simp only [decide_eq_true_eq] at hx
      simp [Table.keys, hx]
  rw [Session.view_of_nil hpending] at hl' ⊢
  cases hlookup with
  | inl hrows =>
      rw [show v.shared.state.users.filter (fun x => x.id = userId) = [] from hrows] at hl' ⊢
      exact hnone _ _ hl'
  | inr hfound =>
      obtain ⟨x, hx, hid, hrows⟩ := hfound
      rw [show v.shared.state.users.filter (fun x => x.id = userId) = [x] from hrows] at hl' ⊢
      exact hsome x v w (by simpa using hid) hx hlater.2.1 (interference_subset hlater.1)
        (exec_subset hexec) hl'

/-- The session has loaded the user in `v`, on a request with the token of the user. -/
structure Acting (t₀ : Tables) (n₀ : Nat) (user : User) (v w : History env HttpRequest)
    (l : Session) : Prop where
  inv : AccessInv t₀ n₀ v
  earlier : v.trace ⊆ w.trace
  mem : user ∈ v.shared.state.users
  caller : ∃ e ∈ w.trace, n₀ ≤ e.step ∧ Authenticates e user.id
  behaved : Behaved t₀ n₀ l w
  pending : l.pending = []
  mapped : l.users user.id = some user

theorem wp_getCurrentUser (hroute : req.route.authenticated = true) {k : User → App HttpResponse}
    (h : ∀ user v w l, Acting t₀ n₀ user v w l →
      (accessProtocol env t₀ n₀).wp i req (fun _ => Behaved t₀ n₀) (k user) l w) :
    (accessProtocol env t₀ n₀).wp i req (fun _ => Behaved t₀ n₀)
      ((getCurrentUser env req.authorization).bind k) {} u := by
  have hstart : ∀ w : History env HttpRequest, Behaved t₀ n₀ {} w := fun w => behaved_nil rfl
  simp only [getCurrentUser, decodeAccessToken, App.utcNow, Program.bind_def]
  cases hbearer : req.authorization.bind bearerToken with
  | none => exact wp_civil trivial (hstart u)
  | some token =>
      simp only [Program.bind_assoc, Program.pure_def, Program.ret_bind]
      refine wp_query (o := .utcNow) (civil_read fun _ => id) (hstart u)
        fun v₁ now w₁ l₁ h₁ hexec₁ hinv₁ hl₁ => ?_
      obtain ⟨g₁, hg₁, -⟩ := World.exec_step hexec₁
      obtain ⟨-, -, rfl⟩ := exec_utcNow hg₁
      cases hclaims : env.jwtDecode env.settings.jwtIssuer now token with
      | none => exact wp_civil trivial hl₁
      | some claims =>
          dsimp only
          cases hid : env.parseUuid claims.sub with
          | none => exact wp_civil trivial hl₁
          | some userId =>
              have hauthenticates : Authenticates
                (⟨v₁.trace.length, i, req, .utcNow, now, v₁.shared, w₁.shared⟩ :
                  Entry (machine env) HttpRequest) userId := by
                simp [Authenticates, HttpRequest.caller, hroute, hbearer, hclaims, hid]
              have hmem : (⟨v₁.trace.length, i, req, .utcNow, now, v₁.shared, w₁.shared⟩ :
                  Entry (machine env) HttpRequest) ∈ w₁.trace := by
                rw [World.exec_trace hexec₁]
                exact List.mem_append_right _ (List.mem_singleton_self _)
              simp only [Program.bind_assoc]
              refine wp_getById hl₁ rfl (fun w l hl => wp_civil trivial hl)
                fun user v₂ w₂ huser hmem₂ hinv₂ hsub₁ hsub₂ hl₂ => ?_
              subst huser
              refine h user v₂ w₂ _ ⟨hinv₂, hsub₂, hmem₂, ?_, hl₂, rfl, ?_⟩
              · exact ⟨_, hsub₂ (hsub₁ hmem), h₁.2.1.begun, hauthenticates⟩
              · simp [Session.load, Session.touch]

/-- What is decided on a user who acts. -/
theorem wp_decision {resource : String} (hresource : resource ∈ ["role", "user", "organization"])
    (h₀ : t₀.Schema) {k : AuthorizationDecision → App HttpResponse} {user : User}
    (h : Acting t₀ n₀ user v u l)
    (hdenied : ∀ decision l w, decision.allowed = false → Behaved t₀ n₀ l w →
      (accessProtocol env t₀ n₀).wp i req (fun _ => Behaved t₀ n₀) (k decision) l w) :
    (accessProtocol env t₀ n₀).wp i req (fun _ => Behaved t₀ n₀)
      ((AuthorizationService.authorize env user.id resource "manage").bind k) l u := by
  simp only [AuthorizationService.authorize, Program.bind_def, Program.bind_assoc]
  refine wp_getById h.behaved h.pending (fun w l hl => hdenied _ _ _ rfl hl)
    fun x v₁ w₁ hid hx hinv₁ hsub₁ hsub₂ hl₁ => ?_
  have hobject : l.object .users x = user := by simp [Session.object, hid, h.mapped]
  rw [hobject]
  cases hactive : user.isActive with
  | false =>
      simp only [Option.filter, hactive]
      exact hdenied _ _ _ rfl hl₁
  | true =>
      simp only [Option.filter, hactive, if_true, UserRoleRepository.getPermissionsForUser]
      refine wp_query (o := .select .permissions _) (civil_read fun _ => id) hl₁
        fun v₂ ps w₂ l₂ h₂ hexec₂ hinv₂ hl₂ => ?_
      obtain ⟨g₂, hg₂, -⟩ := World.exec_step hexec₂
      obtain ⟨rfl, -, rfl⟩ := exec_select hg₂
      have hobject : ∀ l, Session.object l .permissions = fun q => q := fun _ => rfl
      rw [hobject, List.map_id']
      cases hallowed : ((UserRoleRepository.permissionsForUser env user.id none
        (Session.view _ v₂.shared)).any fun q => q.resource = resource ∧ q.action = "manage") with
      | false => exact hdenied _ _ _ rfl hl₂
      | true =>
          -- the permission was there when the run began
          refine wp_aided fun hunaided => ?_
          obtain ⟨q, hq, hmatches⟩ := List.any_eq_true.mp hallowed
          rw [Session.view_of_nil (l := (l.touch _).load .users [x]) h.pending,
            UserRoleRepository.mem_permissionsForUser] at hq
          have hsub₃ : w₁.trace ⊆ v₂.trace := interference_subset h₂.1
          have hsub : u.trace ⊆ v₂.trace := fun e he => hsub₃ (hsub₂ (hsub₁ he))
          have hunaided₂ := hunaided.earlier (exec_subset hexec₂)
          have hsame := h.inv.same (hunaided₂.earlier fun e he => hsub (h.earlier he))
          have hallows := SameAccess.allows h₀ h.inv.sound.schema hsame
            (h₂.2.1.same hunaided₂) h.mem hactive hq.1 (by simpa using hmatches) hq.2
          obtain ⟨e, he, hstep, hauthenticates⟩ := h.caller
          exact hunaided₂ e (hsub he) hstep _ hauthenticates ⟨resource, hresource, hallows⟩

/-- A route behind this permission goes no further, in a run that is unaided. -/
theorem wp_gate {resource : String} (hresource : resource ∈ ["role", "user", "organization"])
    (hroute : req.route.authenticated = true) {k : User → App HttpResponse} (h₀ : t₀.Schema) :
    (accessProtocol env t₀ n₀).wp i req (fun _ => Behaved t₀ n₀)
      ((requirePermission env resource "manage" req.authorization).bind k) {} u := by
  simp only [requirePermission, Program.bind_def, Program.bind_assoc]
  refine wp_getCurrentUser hroute fun user v w l hacting => ?_
  refine wp_decision hresource h₀ hacting fun decision l w hdenied hl => ?_
  simp only [hdenied, Bool.not_false, if_true, Program.raise_bind]
  exact wp_civil trivial hl

end Rules

end SecureIam.Api
