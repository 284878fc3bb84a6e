import SecureIam.Api.Delegation
import SecureIam.Api.Recorded

/-!
Membership is checked when a role is assigned in an organization, in a query of its own: each
such assignment had its member at an earlier moment of the request that made it, and not
necessarily any later.
-/
namespace SecureIam.Api
open Lib App Program
variable {env : Environment} {t t₀ : Tables} {i : Nat} {req : HttpRequest} {l l' : Session}
  {u w w' : History env HttpRequest} {x y : Uuid} {o : Option Uuid}
  {es es' new : List (Entry (machine env) HttpRequest)}

/-- The query of `is_member` has found the user among the members. -/
def FindsMember (e : Entry (machine env) HttpRequest) (x organizationId : Uuid) : Prop :=
  e.op = .select .memberships (OrganizationMembershipRepository.membershipsOf x organizationId) ∧
    ∃ m ∈ e.before.state.memberships, m.userId = x ∧ m.organizationId = organizationId

/-- One of the statements has found the user to be a member. -/
def Enrolled (es : List (Entry (machine env) HttpRequest)) (x : Uuid) (o : Option Uuid) : Prop :=
  ∀ organizationId, o = some organizationId → ∃ e ∈ es, FindsMember e x organizationId

theorem Enrolled.mono (h : Enrolled es x o) (hes : es ⊆ es') : Enrolled es' x o := by
  intro organizationId ho
  obtain ⟨e, he, hfound⟩ := h organizationId ho
  exact ⟨e, hes he, hfound⟩

/-- An assignment in an organization is one of a user who was found to be a member. -/
def enrolment (env : Environment) : Licence env HttpRequest where
  may _ es v := ∀ ur, v = .insert .userRoles ur → Enrolled es ur.userId ur.organizationId
  mono h ur hur := (h ur hur).mono (List.subset_append_left _ _)

section Rules
variable {L : Licence env HttpRequest}

/-- A query finds what one moment has. -/
theorem wp_selected {τ : Table} {q : Tables → List τ.Row} (hl : l.pending = [])
    (hobject : ∀ l x, Session.object l τ x = x) :
    (ledger env t₀ L).wp i req
      (Extends u i fun rows new => ∃ e, new = [e] ∧ e.op = .select τ q ∧ rows = q e.before.state)
      (App.select τ q) l u := by
  refine wp_seen (o := .select τ q) (f := .ret) (fun _ => id) hl
    fun v rows w₁ l₁ e _ hexec _ hl₁ he hown w₂ hlater => ?_
  refine ⟨hl₁, [e], hlater.1.own.trans hown, fun rows' hrows' => ⟨e, rfl, he ▸ rfl, ?_⟩⟩
  cases hrows'
  obtain ⟨g, hg, -, -⟩ := World.exec_step hexec
  obtain ⟨hrows, -, -⟩ := exec_select hg
  rw [hrows, List.map_congr_left fun y _ => hobject l y, List.map_id', Session.view_of_nil hl, he]

theorem wp_isMember (hl : l.pending = []) (organizationId : Uuid) :
    (ledger env t₀ L).wp i req
      (Extends u i fun b new => b = true → Enrolled new x (some organizationId))
      (OrganizationMembershipRepository.isMember x organizationId) l u := by
  refine wp_extends_bind (wp_selected hl fun _ _ => rfl) fun rows new l' w' hl' _ hrows => ?_
  obtain ⟨e, rfl, hop, hrows⟩ := hrows
  cases rows with
  | nil => exact wp_extends_ret hl' fun hnone => by cases hnone
  | cons m rest =>
      cases rest with
      | cons _ _ => exact wp_extends_raise hl'
      | nil =>
          refine wp_extends_ret hl' fun _ id hid => ?_
          cases hid
          have hm : m ∈ OrganizationMembershipRepository.membershipsOf x organizationId
              e.before.state := hrows ▸ List.mem_singleton_self m
          obtain ⟨hmem, hmatches⟩ := List.mem_filter.mp hm
          exact ⟨e, List.mem_append_left _ (List.mem_singleton_self e), hop, m, hmem,
            of_decide_eq_true hmatches⟩

theorem wp_requireMember (hl : l.pending = []) :
    (ledger env t₀ L).wp i req (Extends u i fun _ new => Enrolled new x o)
      (AuthorizationService.requireMember x o) l u := by
  cases o with
  | none => exact wp_extends_ret hl fun _ ho => by cases ho
  | some organizationId =>
      refine wp_extends_bind (wp_still (within_reads (requireOrganization_uses _)) hl)
        fun _ new l' w' hl' _ _ => ?_
      refine wp_extends_bind (wp_isMember hl' organizationId) fun b new' l'' w'' hl'' _ hb => ?_
      cases b with
      | false => exact wp_extends_raise hl''
      | true =>
          refine wp_extends_ret hl'' ?_
          exact (hb rfl).mono fun e he => by simp [he]

end Rules

/-- The service looks for the membership before it assigns. -/
theorem wp_enrolls (y : Uuid) (actor : Uuid) (hl : l.pending = []) :
    (ledger env t₀ (enrolment env)).wp i req (Extends u i fun _ _ => True)
      (AuthorizationService.assignRole x y o actor) l u := by
  refine wp_extends_bind (wp_still (within_reads (uses_selectOne _)) hl)
    fun role new l' w₁ hl' _ _ => ?_
  split
  · exact wp_extends_raise hl'
  · split
    · exact wp_extends_raise hl'
    · refine wp_extends_bind (wp_requireMember hl') fun _ new₁ l'' w₂ hl'' hown henrolled => ?_
      have hmay : ∀ id now, (enrolment env).may req (w₂.own i)
          (.insert .userRoles ((UserRoleRepository.draft x y o).row id now)) := by
        intro id now ur hur
        cases hur
        exact henrolled.mono (hown ▸ List.subset_append_right _ _)
      have hrefresh : ∀ (id : Uuid) {l₃ : Session} {w₃ : History env HttpRequest},
          l₃.pending = [] → (ledger env t₀ (enrolment env)).wp i req (Extends w₃ i fun _ _ => True)
            (App.refresh .userRoles id) l₃ w₃ :=
        fun id _ _ hl₃ => (wp_still (within_reads (uses_refresh _ id)) hl₃).mono
          fun _ _ _ _ _ h => h.mono fun _ _ _ => trivial
      refine wp_extends_bind (R := fun _ _ => True) (wp_extends_handle (fun e l₃ w₃ hl₃ => ?_)
        (wp_extends_bind (wp_extends_except (wp_inserted (g := id) hl'' hmay))
          fun row _ l₃ w₃ hl₃ _ _ => hrefresh row.id hl₃)) fun row _ l₃ w₃ hl₃ _ _ => ?_
      · split
        all_goals exact wp_extends_raise hl₃
      · refine wp_extends_bind (wp_eventRecorded hl₃ fun id now ur hur => by cases hur)
          fun _ _ l₄ w₄ hl₄ _ _ => wp_extends_ret hl₄ trivial

theorem not_assignment {route : Route} {caller : Uuid} {ur : UserRole}
    (hroute : ∀ x y o, route ≠ .assignRoleToUser x y o) :
    ¬ (route.request caller).Issues (.insert .userRoles ur) := by
  intro h
  cases hadmin : (route.request caller).administration with
  | some a =>
      have hrequest := Request.administration_request hadmin
      rw [hrequest] at h
      cases a with
      | assignRole x y o actor =>
          cases route <;> cases hrequest
          exact hroute _ _ _ rfl
      | _ => exact h.elim id id
  | none =>
      obtain h | ⟨_, _, _, -, h, -⟩ | ⟨_, _, h⟩ | ⟨_, _, -, h⟩ := Request.writes_of_plain hadmin h
      · simp [Write.table] at h
      all_goals cases h

theorem respond_enrols (ht₀ : t₀.Ready env) :
    (ledger env t₀ (enrolment env)).Serves (fun _ _ _ _ _ => True) (respond env) := by
  intro req i w _ _
  by_cases hroute : ∃ x y o, req.route = .assignRoleToUser x y o
  · obtain ⟨x, y, o, hroute⟩ := hroute
    have hguard : req.route.guard = .permission "user" "manage" := by rw [hroute]; rfl
    have hhandler : (ledger env t₀ (enrolment env)).wp i req (Extends w i fun _ _ => True)
        (handler env req) {} w := by
      rw [handler_permission hguard]
      refine wp_extends_bind (wp_still (within_reads (requirePermission_uses _ _ _)) rfl)
        fun user _ l' w' hl' _ _ => ?_
      rw [hroute]
      refine wp_extends_bind (R := fun _ _ => True) (wp_extends_handle (fun e l'' w'' hl'' => ?_)
        (wp_extends_bind (wp_enrolls y user.id hl') fun _ _ l'' w'' hl'' _ _ =>
          wp_extends_ret hl'' trivial)) fun _ _ l'' w'' hl'' _ _ => wp_extends_ret hl'' trivial
      split
      all_goals exact wp_extends_raise hl''
    refine wp_respond (R := fun _ _ => True) (fun _ _ => trivial) (fun _ _ => trivial) ?_
    exact hhandler.mono fun _ _ _ _ _ h => ⟨Abides.of_nil h.1, trivial⟩
  · refine respond_allowed ht₀ fun v hv ur hur => ?_
    obtain ⟨caller, hissues⟩ := hv
    refine absurd (hur ▸ hissues) (not_assignment fun x y o heq => ?_)
    exact hroute ⟨x, y, o, heq⟩

section Runs
variable {p : Server env} {ur : UserRole}

/-- A row that was not there at the start has come by a statement of the run. -/
theorem added_of_mem {τ : Table} {row : τ.Row} (hr : Reaches (respond env) (Server.started t) p)
    (hrow : row ∈ p.tables.rows τ) : row ∈ t.rows τ ∨
      ∃ e ∈ p.world.trace, row ∈ e.after.state.rows τ ∧ row ∉ e.before.state.rows τ := by
  induction hr with
  | refl => exact .inl hrow
  | @tail q p hr hs ih =>
      cases hs with
      | spawn req => exact ih hrow
      | @exec i th o k r w l hth hcode hexec =>
          have htrace := World.exec_trace hexec
          by_cases hold : row ∈ q.tables.rows τ
          · refine (ih hold).imp_right fun hadded => ?_
            obtain ⟨e, he, hrest⟩ := hadded
            exact ⟨e, htrace ▸ List.mem_append_left _ he, hrest⟩
          · exact .inr ⟨_, htrace ▸ List.mem_append_right _ (List.mem_singleton_self _), hrow, hold⟩

/-- Whatever is called in whatever order: an assignment in an organization was there from the
start, or the request that committed it had found its user among the members before. -/
theorem assignments_checked (ht : t.Ready env) (hr : Reaches (respond env) (Server.started t) p)
    (hur : ur ∈ p.tables.userRoles) {organizationId : Uuid}
    (ho : ur.organizationId = some organizationId) (hnew : ur ∉ t.userRoles) :
    ∃ commit ∈ p.world.trace,
      ur ∈ commit.after.state.userRoles ∧ ur ∉ commit.before.state.userRoles ∧
      commit.request.route = .assignRoleToUser ur.userId ur.roleId (some organizationId) ∧
      ∃ look ∈ p.world.own commit.pid, look.step < commit.step ∧
        FindsMember look ur.userId organizationId := by
  cases added_of_mem (τ := .userRoles) hr hur with
  | inl hstart => exact absurd hstart hnew
  | inr hadded =>
      obtain ⟨commit, hcommit, hafter, hbefore⟩ := hadded
      obtain ⟨hroute, -⟩ := assigned_of_published ht hr hcommit hafter hbefore
      obtain ⟨-, ws, -, hview, hmay⟩ := Server.published_of ht (respond_enrols ht)
        (fun h hsub ur hur => (h ur hur).mono hsub) hr hcommit
      have hinsert := insertion_of_view (τ := .userRoles) (fun _ => rfl) (hview ▸ hafter) hbefore
      obtain ⟨look, hlook, hfound⟩ := hmay _ hinsert ur rfl organizationId ho
      obtain ⟨hown, hstep⟩ := List.mem_filter.mp hlook
      exact ⟨commit, hcommit, hafter, hbefore, ho ▸ hroute, look, hown, of_decide_eq_true hstep,
        hfound⟩

/-- The first user may manage users and organizations; the second is a member. -/
def enrolledTables : Tables :=
  { smallTables with
    permissions := [⟨⟨11⟩, "user", "manage", none⟩, ⟨⟨17⟩, "organization", "manage", none⟩]
    rolePermissions := [⟨⟨5⟩, ⟨11⟩⟩, ⟨⟨5⟩, ⟨17⟩⟩]
    userRoles := [⟨⟨13⟩, ⟨1⟩, ⟨5⟩, none⟩]
    memberships := [⟨⟨15⟩, ⟨3⟩, ⟨9⟩, 0⟩] }

theorem enrolledTables_ready : enrolledTables.Ready subjectEnvironment := by
  refine ⟨⟨fun τ => ?_, fun τ => ?_⟩, fun m τ => ?_⟩
  · cases τ <;> decide
  · cases τ <;> decide
  · cases τ <;> simp [enrolledTables, smallTables, Tables.hasKey, Tables.rows, LockKey.table,
      Table.keys, subjectEnvironment, plainEnvironment] <;> omega

/-- The second user is assigned a role, and removed once they have been found to be a member. -/
def overtaken : Server subjectEnvironment :=
  Pool.played (respond subjectEnvironment) (Server.started enrolledTables)
    [.spawn ⟨some "Bearer 1", .assignRoleToUser ⟨3⟩ ⟨7⟩ (some ⟨9⟩)⟩,
      .exec 0, .exec 0, .exec 0, .exec 0, .exec 0, .exec 0, .exec 0,
      .spawn ⟨some "Bearer 1", .removeOrganizationMember ⟨9⟩ ⟨3⟩⟩, .finish 1, .finish 0]

/-- The assignment stays, in an organization without members. -/
theorem assignments_checked_overtaken : overtaken.tables.memberships = [] ∧
    ∃ ur ∈ overtaken.tables.userRoles, ∃ commit ∈ overtaken.world.trace,
      ur ∈ commit.after.state.userRoles ∧ ur ∉ commit.before.state.userRoles ∧
      commit.request.route = .assignRoleToUser ur.userId ur.roleId (some ⟨9⟩) ∧
      ∃ look ∈ overtaken.world.own commit.pid, look.step < commit.step ∧
        FindsMember look ur.userId ⟨9⟩ := by
  refine ⟨by decide +kernel, ?_⟩
  have hassigned : ∃ ur ∈ overtaken.tables.userRoles, ur.organizationId = some ⟨9⟩ ∧
      ur ∉ enrolledTables.userRoles := by decide +kernel
  obtain ⟨ur, hur, ho, hnew⟩ := hassigned
  exact ⟨ur, hur, assignments_checked enrolledTables_ready
    (Pool.played_reaches _ (Server.started enrolledTables) _) hur ho hnew⟩

end Runs

end SecureIam.Api
