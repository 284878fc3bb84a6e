import SecureIam.Access.Footprints
import SecureIam.Api.Answers
import SecureIam.Api.Escalation

/-!
Complete mediation: whatever a route changes behind a permission, its caller was
authenticated, active and granted that permission globally, at three earlier moments of the
same request; and every event of the change names that caller.
-/
namespace SecureIam.Api
open Lib Program
variable {env : Environment} {t t₀ : Tables} {i : Nat} {req : HttpRequest} {l l' : Session}
  {u w w' : History env HttpRequest} {resource action : String} {es : List (Entry (machine env)
    HttpRequest)}

/-- What a request has seen of its caller before it goes on behind a permission. -/
def Mandate (es : List (Entry (machine env) HttpRequest)) (resource action : String)
    (caller : Uuid) : Prop :=
  ∃ e₁ ∈ es, ∃ e₂ ∈ es, ∃ e₃ ∈ es, e₁.step < e₂.step ∧ e₂.step < e₃.step ∧
    Authenticates e₁ caller ∧ e₂.before.state.Active caller ∧
    ∃ q ∈ e₃.before.state.permissions, (q.resource = resource ∧ q.action = action) ∧
      e₃.before.state.Grants caller none q

theorem Mandate.mono {es' : List (Entry (machine env) HttpRequest)} {caller : Uuid}
    (h : Mandate es resource action caller) (hes : es ⊆ es') :
    Mandate es' resource action caller := by
  obtain ⟨e₁, h₁, e₂, h₂, e₃, h₃, hrest⟩ := h
  exact ⟨e₁, hes h₁, e₂, hes h₂, e₃, hes h₃, hrest⟩

/-- What a guard has made sure of. -/
def Guard.Met (es : List (Entry (machine env) HttpRequest)) (caller : Uuid) : Guard → Prop
  | anyone => True
  | user => ∃ e₁ ∈ es, ∃ e₂ ∈ es, e₁.step < e₂.step ∧ Authenticates e₁ caller ∧
      ∃ x ∈ e₂.before.state.users, x.id = caller
  | permission resource action => Mandate es resource action caller

theorem Guard.Met.mono {es' : List (Entry (machine env) HttpRequest)} {caller : Uuid}
    {guard : Guard} (h : guard.Met es caller) (hes : es ⊆ es') : guard.Met es' caller := by
  cases guard with
  | anyone => trivial
  | user =>
      obtain ⟨e₁, h₁, e₂, h₂, hrest⟩ := h
      exact ⟨e₁, hes h₁, e₂, hes h₂, hrest⟩
  | permission resource action => exact Mandate.mono h hes

/-- What a request may write: what its call names, on behalf of a caller its guard has met. -/
def mediation (env : Environment) : Licence env HttpRequest where
  may req es v := ∃ caller, (req.route.request caller).Issues v ∧ req.route.guard.Met es caller
  mono := by
    intro req es new v h
    obtain ⟨caller, hissues, hmet⟩ := h
    exact ⟨caller, hissues, hmet.mono (List.subset_append_left _ _)⟩

section Rules
variable {α : Type} {L : Licence env HttpRequest}
  {Q : Protocol.Post (machine env) HttpRequest Error α}

/-- The request has been authenticated as the user, and then has found them. -/
def Found (w : History env HttpRequest) (i : Nat) (user : User) : Prop :=
  ∃ e₁ ∈ w.own i, ∃ e₂ ∈ w.own i, e₁.step < e₂.step ∧ e₂.step < w.trace.length ∧
    Authenticates e₁ user.id ∧ user ∈ e₂.before.state.users

theorem wp_fails {e : Error} (hraise : ∀ e l w, l.pending = [] → Q (.error e) l w)
    (hl : l.pending = []) : (ledger env t₀ L).wp i req Q (.raise e) l u :=
  fun w _ => hraise e l w hl

theorem trace_le (h : Interference i w w') : w.trace.length ≤ w'.trace.length := by
  obtain ⟨new, htrace, -⟩ := h.trace
  rw [htrace, List.length_append]
  exact Nat.le_add_right _ _

theorem trace_exec {o : Stmt} {r : o.Res} (h : w.exec i req o l = some (r, w', l')) :
    w'.trace.length = w.trace.length + 1 := by
  rw [World.exec_trace h, List.length_append, List.length_singleton]

theorem wp_currentUser (hroute : req.route.authenticated = true) {k : User → App α}
    (hraise : ∀ e l w, l.pending = [] → Q (.error e) l w)
    (h : ∀ user w l, l.pending = [] → l.users user.id = some user → Found w i user →
      (ledger env t₀ L).wp i req Q (k user) l w) :
    (ledger env t₀ L).wp i req Q ((getCurrentUser env req.authorization).bind k) {} u := by
  simp only [getCurrentUser, decodeAccessToken, App.utcNow, Program.bind_def]
  cases hbearer : req.authorization.bind bearerToken with
  | none => exact wp_fails hraise rfl
  | some token =>
      simp only [Program.bind_assoc, Program.pure_def, Program.ret_bind]
      refine wp_seen (o := .utcNow) (fun _ => id) rfl
        fun v₁ now w₁ l₁ e₁ h₁ hexec₁ hinv₁ hl₁ he₁ hown₁ => ?_
      obtain ⟨g₁, hg₁, -⟩ := World.exec_step hexec₁
      obtain ⟨-, -, rfl⟩ := exec_utcNow hg₁
      cases hclaims : env.jwtDecode env.settings.jwtIssuer now token with
      | none => exact wp_fails hraise rfl
      | some claims =>
          dsimp only
          cases hid : env.parseUuid claims.sub with
          | none => exact wp_fails hraise rfl
          | some userId =>
              simp only [UserRepository.getById, Program.bind_def, Program.bind_assoc]
              refine wp_seen (o := .select .users _) (fun _ => id) rfl
                fun v₂ rows w₂ l₂ e₂ h₂ hexec₂ hinv₂ hl₂ he₂ hown₂ => ?_
              obtain ⟨g₂, hg₂, -⟩ := World.exec_step hexec₂
              obtain ⟨hrows, -, rfl⟩ := exec_select hg₂
              have hobject : ∀ x : User, ({} : Session).object .users x = x := fun _ => rfl
              rw [List.map_congr_left fun x _ => hobject x, List.map_id'] at hrows
              cases rows with
              | nil => exact wp_fails hraise hl₂
              | cons user others =>
                  cases others with
                  | cons _ _ => exact wp_fails hraise hl₂
                  | nil =>
                      have huser : user ∈ v₂.shared.state.users.filter (·.id = userId) :=
                        hrows ▸ List.mem_singleton_self user
                      obtain ⟨hmem, hid'⟩ := List.mem_filter.mp huser
                      obtain rfl : user.id = userId := of_decide_eq_true hid'
                      have hmem₂ : e₂ ∈ w₂.own i :=
                        hown₂ ▸ List.mem_append_right _ (List.mem_singleton_self e₂)
                      have hmem₁ : e₁ ∈ w₂.own i := by
                        rw [hown₂, hown₁]
                        exact List.mem_append_left _
                          (List.mem_append_right _ (List.mem_singleton_self e₁))
                      refine h user w₂ _ hl₂ ?_ ⟨e₁, hmem₁, e₂, hmem₂, ?_, ?_, ?_, he₂ ▸ hmem⟩
                      · rw [← hrows]
                        simp [Session.load, Session.touch]
                      · rw [he₁, he₂]
                        have hlt := trace_exec hexec₁
                        have hle := trace_le h₂.1
                        exact Nat.lt_of_lt_of_le (hlt ▸ Nat.lt_succ_self _) hle
                      · rw [he₂, trace_exec hexec₂]
                        exact Nat.lt_succ_self _
                      · rw [he₁]
                        simp [Authenticates, HttpRequest.caller, hroute, hbearer, hclaims, hid]

/-- The user carries the permission in the scope. -/
def Carries (t : Tables) (u : Uuid) (resource action : String) (o : Option Uuid) : Prop :=
  ∃ q ∈ t.permissions, (q.resource = resource ∧ q.action = action) ∧ t.Grants u o q

instance (t : Tables) (u : Uuid) (resource action : String) (o : Option Uuid) :
    Decidable (Carries t u resource action o) :=
  inferInstanceAs (Decidable (∃ _ ∈ _, _ ∧ _))

/-- The decision on a user who has been found: their permissions are those of one moment, and
they are as active as they were found, if they are still there. -/
def DecidedAt (e : Entry (machine env) HttpRequest) (user : User) (resource action : String)
    (o : Option Uuid) (d : AuthorizationDecision) : Prop :=
  d = ⟨user.isActive && decide (Carries e.before.state user.id resource action o), resource,
    action, o⟩ ∨
  d = ⟨false, resource, action, o⟩ ∧ ∀ x ∈ e.before.state.users, x.id ≠ user.id

theorem wp_authorize {user : User} {o : Option Uuid} {k : AuthorizationDecision → App α}
    (hraise : ∀ e l w, l.pending = [] → Q (.error e) l w) (hl : l.pending = [])
    (hmapped : l.users user.id = some user)
    (h : ∀ d w l, l.pending = [] → u.own i ⊆ w.own i →
      (∃ e ∈ w.own i, u.trace.length ≤ e.step ∧ DecidedAt e user resource action o d) →
      (ledger env t₀ L).wp i req Q (k d) l w) :
    (ledger env t₀ L).wp i req Q
      ((AuthorizationService.authorize env user.id resource action o).bind k) l u := by
  simp only [AuthorizationService.authorize, Program.bind_def, Program.bind_assoc,
    UserRepository.getById]
  refine wp_seen (o := .select .users _) (fun _ => id) hl
    fun v₁ rows w₁ l₁ e₁ h₁ hexec₁ hinv₁ hl₁ he₁ hown₁ => ?_
  obtain ⟨g₁, hg₁, -⟩ := World.exec_step hexec₁
  obtain ⟨hrows, -, rfl⟩ := exec_select hg₁
  have hsub₁ : u.own i ⊆ w₁.own i := hown₁ ▸ List.subset_append_left _ _
  have hmem₁ : e₁ ∈ w₁.own i := hown₁ ▸ List.mem_append_right _ (List.mem_singleton_self e₁)
  have hle₁ : u.trace.length ≤ e₁.step := by
    rw [he₁]
    exact trace_le h₁.1
  cases rows with
  | nil =>
      refine h _ w₁ _ hl₁ hsub₁ ⟨e₁, hmem₁, hle₁, .inr ⟨rfl, fun x hx hid => ?_⟩⟩
      have hnone := List.map_eq_nil_iff.mp hrows.symm
      rw [Session.view_of_nil hl, List.filter_eq_nil_iff] at hnone
      rw [he₁] at hx
      exact hnone x hx (decide_eq_true hid)
  | cons x others =>
      cases others with
      | cons _ _ => exact wp_fails hraise hl₁
      | nil =>
          -- the identity map returns the user as they were found before
          have hx : x = user := by
            have hmem : x ∈ [x] := List.mem_singleton_self x
            rw [hrows] at hmem
            obtain ⟨y, hy, rfl⟩ := List.mem_map.mp hmem
            have hid : y.id = user.id := of_decide_eq_true (List.mem_filter.mp hy).2
            simp [Session.object, hid, hmapped]
          subst hx
          simp only [App.scalarOneOrNone, Program.pure_def, Program.ret_bind]
          cases hactive : x.isActive with
          | false =>
              simp only [Option.filter, hactive]
              exact h _ w₁ _ hl₁ hsub₁ ⟨e₁, hmem₁, hle₁, .inl (by simp [hactive])⟩
          | true =>
              simp only [Option.filter, hactive, if_true, UserRoleRepository.getPermissionsForUser,
                Program.bind_assoc]
              refine wp_seen (o := .select .permissions _) (fun _ => id) hl₁
                fun v₂ ps w₂ l₂ e₂ h₂ hexec₂ hinv₂ hl₂ he₂ hown₂ => ?_
              obtain ⟨g₂, hg₂, -⟩ := World.exec_step hexec₂
              obtain ⟨rfl, -, -⟩ := exec_select hg₂
              have hobject : ∀ (l : Session) (q : Permission), l.object .permissions q = q :=
                fun _ _ => rfl
              simp only [List.map_congr_left fun q _ => hobject _ q, List.map_id', Program.ret_bind]
              rw [Session.view_of_nil hl₁]
              have hallowed : ((UserRoleRepository.permissionsForUser env x.id o
                  v₂.shared.state).any fun q => q.resource = resource ∧ q.action = action) =
                    decide (Carries v₂.shared.state x.id resource action o) := by
                rw [Bool.eq_iff_iff, List.any_eq_true, decide_eq_true_eq]
                simp only [UserRoleRepository.mem_permissionsForUser, decide_eq_true_eq, Carries]
                constructor
                · intro hany
                  obtain ⟨q, ⟨hq, hgrants⟩, hname⟩ := hany
                  exact ⟨q, hq, hname, hgrants⟩
                · intro hcarries
                  obtain ⟨q, hq, hname, hgrants⟩ := hcarries
                  exact ⟨q, ⟨hq, hgrants⟩, hname⟩
              rw [hallowed]
              have hsub₂ : w₁.own i ⊆ w₂.own i := hown₂ ▸ List.subset_append_left _ _
              refine h _ w₂ l₂ hl₂ (fun e he => hsub₂ (hsub₁ he)) ⟨e₂, ?_, ?_, .inl ?_⟩
              · exact hown₂ ▸ List.mem_append_right _ (List.mem_singleton_self e₂)
              · have hle₂ := trace_le h₂.1
                have hgrows := trace_exec hexec₁
                rw [he₂]
                rw [he₁] at hle₁
                change u.trace.length ≤ v₁.trace.length at hle₁
                change u.trace.length ≤ v₂.trace.length
                omega
              · simp [hactive, he₂]

/-- The rule of a guard that asks for a permission. -/
theorem wp_permission (hroute : req.route.authenticated = true) {k : User → App α}
    (hraise : ∀ e l w, l.pending = [] → Q (.error e) l w)
    (h : ∀ user w l, l.pending = [] → Mandate (w.own i) resource action user.id →
      (ledger env t₀ L).wp i req Q (k user) l w) :
    (ledger env t₀ L).wp i req Q
      ((requirePermission env resource action req.authorization).bind k) {} u := by
  simp only [requirePermission, Program.bind_def, Program.bind_assoc]
  refine wp_currentUser hroute hraise fun user w l hl hmapped hfound => ?_
  refine wp_authorize hraise hl hmapped fun d w' l' hl' hsub hdecided => ?_
  obtain ⟨e₃, h₃, hle, hd⟩ := hdecided
  cases hallowed : d.allowed with
  | false => exact wp_fails hraise hl'
  | true =>
      cases hd with
      | inr hgone =>
          rw [hgone.1] at hallowed
          cases hallowed
      | inl hd =>
          rw [hd] at hallowed
          obtain ⟨hactive, hcarries⟩ := Bool.and_eq_true_iff.mp hallowed
          obtain ⟨e₁, h₁, e₂, h₂, hlt, hlt', hauthenticates, hmem⟩ := hfound
          exact h user w' l' hl' ⟨e₁, hsub h₁, e₂, hsub h₂, e₃, h₃, hlt,
            Nat.lt_of_lt_of_le hlt' hle, hauthenticates, ⟨user, hmem, rfl, hactive⟩,
            of_decide_eq_true hcarries⟩

theorem answered_confined (ht₀ : t₀.Ready env) (route : Route) (caller : Uuid) :
    Confined env t₀ (route.request caller).Issues (answered env route caller) := by
  have htranslated : Confined env t₀ (route.request caller).Issues
      (translate (call env (route.request caller)) route.known) :=
    confined_handle (call_confined ht₀ _) fun e => confined_of_all (by split <;> trivial)
  exact confined_bind htranslated fun r => confined_of_all trivial

/-- A request keeps to its licence, and is only answered once its guard is met. -/
def Answers (req : HttpRequest) (i : Nat) :
    Protocol.Post (machine env) HttpRequest Error HttpResponse := fun out _ w =>
  ∀ response, out = .ok response → ∃ caller, req.route.guard.Met (w.own i) caller

theorem wp_answered (ht₀ : t₀.Ready env) {caller : Uuid} (hl : l.pending = [])
    (hmet : req.route.guard.Met (u.own i) caller) :
    (ledger env t₀ (mediation env)).wp i req
      (fun out l w => Abides (mediation env) (w.own i) i req l w ∧ Answers req i out l w)
      (answered env req.route caller) l u := by
  refine (answered_confined ht₀ req.route caller HttpRequest (mediation env)
    (fun v hv => ⟨caller, hv, hmet⟩) (Abides.of_nil hl)).mono fun out l' w' _ _ h => ?_
  obtain ⟨new, hown⟩ := h.own
  have hsubset : u.own i ⊆ w'.own i := hown ▸ List.subset_append_left _ _
  exact ⟨⟨h.licensed, [], (List.append_nil _).symm⟩, fun _ _ => ⟨caller, hmet.mono hsubset⟩⟩

theorem wp_mediated (ht₀ : t₀.Ready env) :
    (ledger env t₀ (mediation env)).wp i req
      (fun out l w => Abides (mediation env) (w.own i) i req l w ∧ Answers req i out l w)
      (handler env req) {} u := by
  have hraise : ∀ (e : Error) (l : Session) (w : History env HttpRequest), l.pending = [] →
      Abides (mediation env) (w.own i) i req l w ∧ Answers req i (.error e) l w := by
    intro e l w hl
    exact ⟨Abides.of_nil hl, by simp [Answers]⟩
  cases hguard : req.route.guard with
  | anyone =>
      rw [handler_anyone hguard ⟨0⟩]
      exact wp_answered ht₀ rfl (by rw [hguard]; trivial)
  | user =>
      rw [handler_user hguard]
      have hroute : req.route.authenticated = true := by
        cases hroute : req.route <;> rw [hroute] at hguard <;> first | rfl | cases hguard
      refine wp_currentUser hroute hraise fun user w l hl _ hfound => ?_
      obtain ⟨e₁, h₁, e₂, h₂, hlt, -, hauthenticates, hmem⟩ := hfound
      exact wp_answered ht₀ hl
        (hguard ▸ ⟨e₁, h₁, e₂, h₂, hlt, hauthenticates, user, hmem, rfl⟩)
  | permission resource action =>
      rw [handler_permission hguard]
      have hroute : req.route.authenticated = true := by
        cases hroute : req.route <;> rw [hroute] at hguard <;> first | rfl | cases hguard
      refine wp_permission hroute hraise fun user w l hl hmandate => ?_
      exact wp_answered ht₀ hl (by rw [hguard]; exact hmandate)

/-- The rule of a request: what its statements so far show of its answer is still shown after
the session is closed. -/
theorem wp_respond {R : Except Error HttpResponse → List (Entry (machine env) HttpRequest) → Prop}
    (hmono : ∀ {out es es'}, R out es → es ⊆ es' → R out es') (hraise : ∀ e es, R (.error e) es)
    (h : (ledger env t₀ L).wp i req
      (fun out l w => Abides L (w.own i) i req l w ∧ R out (w.own i)) (handler env req) {} u) :
    (ledger env t₀ L).wp i req (fun out _ w => R out (w.own i)) (respond env req) {} u := by
  refine Protocol.wp_ensure (h.mono fun out l' w' _ _ h => ?_) ?_
  · have hrollback : App.rollback.All fun o => ∀ v, Stmt.Writes o v → L.may req (w'.own i) v :=
      (within_reads (N := L.may req (w'.own i)) (uses_issue (o := .rollback) trivial)).mono
        fun _ ho => ho
    refine (wp_licensed hrollback h.1).mono fun stop l'' w'' _ _ habides => ?_
    obtain ⟨new, hown⟩ := habides.own
    cases stop with
    | error e => exact hraise e _
    | ok _ => exact hmono h.2 (hown ▸ List.subset_append_left _ _)
  · intro out l w w' _ h hlater
    exact hlater.1.own ▸ h

end Rules

theorem respond_mediated (ht₀ : t₀.Ready env) :
    (ledger env t₀ (mediation env)).Serves Answers (respond env) := by
  intro req i w hinv hnew
  refine wp_respond (R := fun out es => ∀ response, out = .ok response →
    ∃ caller, req.route.guard.Met es caller) (fun h hsub response hout => ?_) ?_ (wp_mediated ht₀)
  · obtain ⟨caller, hmet⟩ := h response hout
    exact ⟨caller, hmet.mono hsub⟩
  · intro e es response hout
    cases hout

/-- The tables that say who may do what, and who belongs where. -/
def accessTables : List Table :=
  [.roles, .permissions, .rolePermissions, .userRoles, .organizations, .memberships]

/-- The write that deletes the row. -/
def deletion : (τ : Table) → τ.Row → Option Write
  | .rolePermissions, row => some (.deleteRolePermission row)
  | .userRoles, row => some (.deleteUserRole row)
  | .memberships, row => some (.deleteMembership row)
  | _, _ => none

section Writes
variable {τ : Table} {row : τ.Row} {v : Write} {ws : List Write}

theorem fixed_of_access (hτ : τ ∈ accessTables) (x : τ.Row) : τ.fixed x = x := by
  cases τ <;> first | rfl | simp [accessTables] at hτ

theorem deletion_of_apply (hτ : τ ∈ accessTables) (h : row ∈ t.rows τ)
    (h' : row ∉ (v.apply t).rows τ) : deletion τ row = some v := by
  cases v with
  | insert σ x =>
      refine absurd ?_ h'
      by_cases hσ : τ = σ
      · subst hσ
        rw [Write.apply, Tables.rows_insert_self]
        exact List.mem_append_left _ h
      · rwa [Write.apply, Tables.rows_insert_ne t hσ]
  | deleteRolePermission x | deleteUserRole x | deleteMembership x =>
      cases τ <;> first
        | exact absurd h h'
        | (refine congrArg some (congrArg _ (not_not.mp fun hne => h' ?_))
           exact List.mem_filter.mpr ⟨h, decide_eq_true hne⟩)
  | setLastLoginAt _ _ | setIsActive _ _ | setRevokedAt _ _ | setReplacedBy _ _ =>
      cases τ <;> first | exact absurd h h' | simp [accessTables] at hτ

theorem deletion_of_view (hτ : τ ∈ accessTables) (h : row ∈ t.rows τ)
    (h' : row ∉ (Store.view (T := tableStore) ws t).rows τ) :
    ∃ v ∈ ws, deletion τ row = some v := by
  induction ws generalizing t with
  | nil => exact absurd h h'
  | cons v ws ih =>
      by_cases hrow : row ∈ (v.apply t).rows τ
      · obtain ⟨v', hv', hdeletion⟩ := ih hrow h'
        exact ⟨v', List.mem_cons_of_mem v hv', hdeletion⟩
      · exact ⟨v, List.mem_cons_self, deletion_of_apply hτ h hrow⟩

theorem insertion_of_view (hfixed : ∀ x, τ.fixed x = x)
    (h : row ∈ (Store.view (T := tableStore) ws t).rows τ) (h' : row ∉ t.rows τ) :
    .insert τ row ∈ ws := by
  cases Write.row_of_view h with
  | inl hfound =>
      obtain ⟨y, hy, heq⟩ := hfound
      rw [hfixed, hfixed] at heq
      exact absurd (heq ▸ hy) h'
  | inr hnew =>
      obtain ⟨y, hy, heq⟩ := hnew
      rw [hfixed, hfixed] at heq
      exact heq ▸ hy

end Writes

/-- The call that the route makes for its caller is this one, and the caller has its mandate. -/
def Mandated (es : List (Entry (machine env) HttpRequest)) (route : Route) (a : Administration) :
    Prop :=
  route.request a.actor = a.request ∧
    ∃ resource, route.guard = .permission resource "manage" ∧ Mandate es resource "manage" a.actor

theorem Route.administration_guard {route : Route} {caller : Uuid} {a : Administration}
    (h : (route.request caller).administration = some a) :
    a.actor = caller ∧ ∃ resource, route.guard = .permission resource "manage" := by
  cases route <;> cases h <;> exact ⟨rfl, _, rfl⟩

/-- A write of the tables of access, or of an event of a change of theirs, has a mandate. -/
theorem mandated_of_may {v : Write} (h : (mediation env).may req es v)
    (hv : v.table ∈ accessTables ∨
      ∃ x, v = .insert .auditLogs x ∧ ∃ b : Administration, x.action = b.action) :
    ∃ a, Mandated es req.route a ∧ a.Footprint v := by
  obtain ⟨caller, hissues, hmet⟩ := h
  cases hadmin : (req.route.request caller).administration with
  | some a =>
      obtain ⟨rfl, resource, hguard⟩ := Route.administration_guard hadmin
      have hrequest := Request.administration_request hadmin
      rw [hguard] at hmet
      rw [hrequest] at hissues
      refine ⟨a, ⟨hrequest, resource, hguard, hmet⟩, ?_⟩
      cases a <;> exact hissues
  | none =>
      cases hv with
      | inl htable =>
          obtain h | ⟨_, _, _, -, rfl, -⟩ | ⟨_, _, rfl⟩ | ⟨_, _, -, rfl⟩ :=
            Request.writes_of_plain hadmin hissues
          · cases h with
            | inl h => simp [h, accessTables] at htable
            | inr h => simp [h, accessTables] at htable
          all_goals simp [Write.table, accessTables] at htable
      | inr hevent =>
          obtain ⟨x, rfl, b, hb⟩ := hevent
          exact absurd hb (Request.event_of_plain hadmin hissues b)

theorem not_setIsActive {x : Uuid} {active : Bool} :
    ¬ (mediation env).may req es (.setIsActive x active) := by
  intro h
  obtain ⟨caller, hissues, -⟩ := h
  cases hadmin : (req.route.request caller).administration with
  | some a =>
      rw [Request.administration_request hadmin] at hissues
      cases a <;> exact hissues.elim id id
  | none =>
      obtain h | ⟨_, _, _, -, h, -⟩ | ⟨_, _, h⟩ | ⟨_, _, hrequest, -⟩ :=
        Request.writes_of_plain hadmin hissues
      · simp [Write.table] at h
      · cases h
      · cases h
      · cases hroute : req.route <;> rw [hroute] at hrequest <;> cases hrequest

/-- Everybody is still there, and active or not as they were. -/
def KeepsActive (t t' : Tables) : Prop :=
  ∀ x ∈ t.users, ∃ y ∈ t'.users, y.id = x.id ∧ y.isActive = x.isActive

theorem keepsActive_apply {v : Write} (hv : ∀ id active, v ≠ .setIsActive id active) :
    KeepsActive t (v.apply t) := by
  intro x hx
  cases v with
  | insert τ row =>
      cases τ with
      | users => exact ⟨x, List.mem_append_left _ hx, rfl, rfl⟩
      | _ => exact ⟨x, hx, rfl, rfl⟩
  | setLastLoginAt id now =>
      refine ⟨_, List.mem_map_of_mem hx, ?_⟩
      split <;> exact ⟨rfl, rfl⟩
  | setIsActive id active => exact absurd rfl (hv id active)
  | _ => exact ⟨x, hx, rfl, rfl⟩

theorem keepsActive_published (ht : t.Schema)
    (h : schema.Published ((mediation env).may req es) t t₀) : KeepsActive t t₀ := by
  refine h.across ht (fun t x hx => ⟨x, hx, rfl, rfl⟩) (fun h h' x hx => ?_) fun v t _ _ hv => ?_
  · obtain ⟨y, hy, hid, hactive⟩ := h x hx
    obtain ⟨z, hz, hid', hactive'⟩ := h' y hy
    exact ⟨z, hz, hid'.trans hid, hactive'.trans hactive⟩
  · refine keepsActive_apply fun id active heq => ?_
    subst heq
    exact not_setIsActive hv

theorem earlier_own {p q q' : Server env} {e : Entry (machine env) HttpRequest}
    (hplaced : q'.world.Placed) (htrace : q'.world.trace = q.world.trace ++ [e])
    (hlater : q'.world.trace ⊆ p.world.trace) :
    q.world.own e.pid ⊆ (p.world.own e.pid).filter (·.step < e.step) := by
  have hstep : e.step = q.world.trace.length := by
    refine hplaced _ _ ?_
    simp [htrace]
  intro x hx
  obtain ⟨hx, hpid⟩ := List.mem_filter.mp hx
  obtain ⟨n, hn⟩ := List.mem_iff_getElem?.mp hx
  have hlt := (List.getElem?_eq_some_iff.mp hn).1
  have hplace : x.step = n := hplaced n x (by rw [htrace, List.getElem?_append_left hlt, hn])
  have hmem : x ∈ p.world.trace := hlater (htrace ▸ List.mem_append_left _ hx)
  refine List.mem_filter.mpr ⟨List.mem_filter.mpr ⟨hmem, hpid⟩, decide_eq_true ?_⟩
  omega

namespace Server
variable {p p' : Server env}

theorem ledger_kept (ht : t.Ready env) (hr : Reaches (respond env) (Server.started t) p) :
    (ledger env t (mediation env)).Kept Answers p :=
  (ledger_start ht.schema ht.undrawn).reaches (respond_mediated ht) hr

/-- What one statement of a run publishes: writes that its request may make, given what it has
done before. -/
theorem published_of {L : Licence env HttpRequest}
    {Q : HttpRequest → Nat → Protocol.Post (machine env) HttpRequest Error HttpResponse}
    (ht : t.Ready env) (hserves : (ledger env t L).Serves Q (respond env))
    (hmono : ∀ {req es es' v}, L.may req es v → es ⊆ es' → L.may req es' v)
    (hr : Reaches (respond env) (Server.started t) p)
    {e : Entry (machine env) HttpRequest} (he : e ∈ p.world.trace) :
    e.before.state.Schema ∧ ∃ ws, schema.Valid ws e.before.state ∧
      e.after.state = Store.view (T := tableStore) ws e.before.state ∧
      ∀ v ∈ ws, L.may e.request ((p.world.own e.pid).filter (·.step < e.step)) v := by
  have hstart : (ledger env t L).Kept Q (Server.started t : Server env) :=
    ledger_start ht.schema ht.undrawn
  have hguaranteed := hstart.guaranteed hserves hr he
  cases hguaranteed with
  | inl hstart => cases hstart
  | inr hguaranteed =>
      obtain ⟨q, q', hq, hstep, hq', hbefore, hafter, htrace, ws, hws, hvalid, hview⟩ := hguaranteed
      have hschema := (hstart.reaches hserves hq).inv.1.schema
      have hplaced := (hstart.reaches hserves (hq.tail hstep)).inv.1.placed
      obtain ⟨new, hnew⟩ := Reaches.trace hq'
      have hown := earlier_own hplaced htrace (p := p) (hnew ▸ List.subset_append_left _ _)
      rw [hbefore] at hschema hvalid hview
      rw [hafter] at hview
      exact ⟨hschema, ws, hvalid, hview, fun v hv => hmono (hws v hv) hown⟩

theorem published (ht : t.Ready env) (hr : Reaches (respond env) (Server.started t) p)
    {e : Entry (machine env) HttpRequest} (he : e ∈ p.world.trace) :
    e.before.state.Schema ∧ ∃ ws, schema.Valid ws e.before.state ∧
      e.after.state = Store.view (T := tableStore) ws e.before.state ∧
      ∀ v ∈ ws, (mediation env).may e.request ((p.world.own e.pid).filter (·.step < e.step)) v :=
  published_of ht (respond_mediated ht) (fun h hsub => by
    obtain ⟨caller, hissues, hmet⟩ := h
    exact ⟨caller, hissues, hmet.mono hsub⟩) hr he

end Server

/-- Whatever is called in whatever order: no request succeeds before its guard is met, each row
of the tables of access that appears or goes is one that a call makes whose caller had its mandate
before, each event of such a change names a caller who had theirs, and no route activates or
deactivates anybody. -/
theorem mediation_complete (ht : t.Ready env) {p : Server env}
    (hr : Reaches (respond env) (Server.started t) p) :
    (∀ (i : Nat) (th : Thread (machine env) HttpRequest Error HttpResponse),
      p.threads[i]? = some th → ∀ response, th.outcome = some (.ok response) →
      ∃ caller, th.request.route.guard.Met (p.world.own i) caller) ∧
    ∀ e ∈ p.world.trace,
      (∀ τ ∈ accessTables, ∀ row ∈ e.after.state.rows τ, row ∉ e.before.state.rows τ →
        ∃ a, Mandated ((p.world.own e.pid).filter (·.step < e.step)) e.request.route a ∧
          a.Makes (.insert τ row)) ∧
      (∀ τ ∈ accessTables, ∀ row ∈ e.before.state.rows τ, row ∉ e.after.state.rows τ →
        ∃ a, Mandated ((p.world.own e.pid).filter (·.step < e.step)) e.request.route a ∧
          ∃ v, deletion τ row = some v ∧ a.Makes v) ∧
      (∀ x ∈ e.after.state.auditLogs, x ∉ e.before.state.auditLogs →
        ∀ b : Administration, x.action = b.action →
        ∃ a, Mandated ((p.world.own e.pid).filter (·.step < e.step)) e.request.route a ∧
          x.action = a.action ∧ x.actorUserId = some a.actor) ∧
      ∀ x ∈ e.before.state.users, ∃ y ∈ e.after.state.users,
        y.id = x.id ∧ y.isActive = x.isActive := by
  refine ⟨fun i th hth response hout => ?_, fun e he => ?_⟩
  · exact (Server.ledger_kept ht hr).outcome hth (Thread.code_of_outcome hout) response rfl
  obtain ⟨hschema, ws, hvalid, hview, hmay⟩ := Server.published ht hr he
  rw [hview]
  refine ⟨fun τ hτ row hrow hnew => ?_, fun τ hτ row hrow hgone => ?_,
    fun x hx hnew b hb => ?_, fun x hx => ?_⟩
  · have hinsert := insertion_of_view (fixed_of_access hτ) hrow hnew
    obtain ⟨a, hmandated, hfootprint⟩ := mandated_of_may (hmay _ hinsert) (.inl hτ)
    refine ⟨a, hmandated, hfootprint.resolve_right fun htells => ?_⟩
    cases τ <;> first | exact htells | simp [accessTables] at hτ
  · obtain ⟨v, hv, hdeletion⟩ := deletion_of_view hτ hrow hgone
    have htable : v.table = τ := by
      cases τ <;> first | (cases hdeletion; rfl) | simp [deletion] at hdeletion
    obtain ⟨a, hmandated, hfootprint⟩ := mandated_of_may (hmay v hv) (.inl (htable ▸ hτ))
    refine ⟨a, hmandated, v, hdeletion, hfootprint.resolve_right fun htells => ?_⟩
    cases τ <;> first | (cases hdeletion; exact htells) | simp [deletion] at hdeletion
  · have hinsert := insertion_of_view (τ := .auditLogs) (fun _ => rfl) hx hnew
    obtain ⟨a, hmandated, hfootprint⟩ := mandated_of_may (hmay _ hinsert) (.inr ⟨x, rfl, b, hb⟩)
    refine ⟨a, hmandated, hfootprint.resolve_left fun hmakes => ?_⟩
    cases a <;> exact hmakes
  · exact keepsActive_published hschema ⟨ws, hmay, hvalid, rfl⟩ x hx

/-- The first user may manage roles everywhere. -/
def managedTables : Tables := { scopedTables with userRoles := [⟨⟨13⟩, ⟨1⟩, ⟨5⟩, none⟩] }

theorem managedTables_ready : managedTables.Ready subjectEnvironment := by
  refine ⟨⟨fun τ => ?_, fun τ => ?_⟩, fun m τ => ?_⟩
  · cases τ <;> decide
  · cases τ <;> decide
  · cases τ <;> simp [managedTables, scopedTables, smallTables, Tables.hasKey, Tables.rows,
      LockKey.table, Table.keys, subjectEnvironment, plainEnvironment] <;> omega

/-- A manager and somebody else ask for a role, at the same time. -/
def managed : Server subjectEnvironment :=
  Pool.played (respond subjectEnvironment) (Server.started managedTables)
    [.spawn ⟨some "Bearer 1", .createRole "auditor" none none⟩,
      .spawn ⟨some "Bearer 3", .createRole "admin" none none⟩, .exec 0, .exec 1, .finish 0,
      .finish 1]

theorem mediation_complete_managed :
    managed.tables.roles.map (·.name) = ["reader", "member", "auditor"] ∧
    ∀ e ∈ managed.world.trace, ∀ row ∈ e.after.state.rows .roles,
      row ∉ e.before.state.rows .roles →
      ∃ a, Mandated ((managed.world.own e.pid).filter (·.step < e.step)) e.request.route a ∧
        a.Makes (.insert .roles row) := by
  refine ⟨by decide +kernel, fun e he => ?_⟩
  have hcomplete := (mediation_complete managedTables_ready (Pool.played_reaches _ _ _)).2 e he
  exact hcomplete.1 .roles (by decide)

end SecureIam.Api
