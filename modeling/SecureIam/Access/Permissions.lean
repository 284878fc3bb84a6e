import SecureIam.Access.Verdicts
import SecureIam.Services.Runs
import SecureIam.Services.Statements

/-!
What a user may do: a relation between the rows of four tables, which the decision and
the listing both compute.
-/
namespace SecureIam
open Lib App
variable {env : Environment} {t : Tables} {u : Uuid} {o : Option Uuid}

/-- A permission reaches a user through a role that is held globally or in the organization. -/
def Tables.Grants (t : Tables) (u : Uuid) (o : Option Uuid) (p : Permission) : Prop :=
  ∃ ur ∈ t.userRoles, (ur.userId = u ∧ (ur.organizationId = none ∨ ur.organizationId = o)) ∧
    ∃ rp ∈ t.rolePermissions, rp.roleId = ur.roleId ∧ rp.permissionId = p.id

instance (t : Tables) (u : Uuid) (o : Option Uuid) (p : Permission) : Decidable (t.Grants u o p) :=
  inferInstanceAs (Decidable (∃ _ ∈ _, _ ∧ ∃ _ ∈ _, _))

def Tables.Active (t : Tables) (u : Uuid) : Prop := ∃ x ∈ t.users, x.id = u ∧ x.isActive = true

instance (t : Tables) (u : Uuid) : Decidable (t.Active u) :=
  inferInstanceAs (Decidable (∃ _ ∈ _, _))

def Tables.Allows (t : Tables) (u : Uuid) (resource action : String) (o : Option Uuid) : Prop :=
  t.Active u ∧ ∃ p ∈ t.permissions, (p.resource = resource ∧ p.action = action) ∧ t.Grants u o p

instance (t : Tables) (u : Uuid) (resource action : String) (o : Option Uuid) :
    Decidable (t.Allows u resource action o) :=
  inferInstanceAs (Decidable (_ ∧ ∃ _ ∈ _, _ ∧ _))

theorem Tables.Grants.global {p : Permission} (h : t.Grants u none p) (o : Option Uuid) :
    t.Grants u o p := by
  obtain ⟨ur, hur, ⟨hu, ho⟩, hrest⟩ := h
  exact ⟨ur, hur, ⟨hu, .inl (ho.elim id id)⟩, hrest⟩

namespace UserRoleRepository

theorem inScope_iff {ur : UserRole} :
    inScope o ur = true ↔ ur.organizationId = none ∨ ur.organizationId = o := by
  cases o with
  | none => simp [inScope]
  | some o => simp [inScope]

theorem mem_permissionRows {p : Permission} :
    p ∈ permissionRows u o t ↔ p ∈ t.permissions ∧ t.Grants u o p := by
  simp only [permissionRows, List.mem_flatMap, List.mem_map, List.mem_filter, decide_eq_true_eq,
    inScope_iff]
  constructor
  · intro h
    obtain ⟨p', hp', rp, ⟨hrp, hperm⟩, ur, ⟨hur, hrole, huser, hscope⟩, rfl⟩ := h
    exact ⟨hp', ur, hur, ⟨huser, hscope⟩, rp, hrp, hrole.symm, hperm⟩
  · intro h
    obtain ⟨hp, ur, hur, ⟨huser, hscope⟩, rp, hrp, hrole, hperm⟩ := h
    exact ⟨p, hp, rp, ⟨hrp, hperm⟩, ur, ⟨hur, hrole.symm, huser, hscope⟩, rfl⟩

theorem mem_permissionsForUser {p : Permission} :
    p ∈ permissionsForUser env u o t ↔ p ∈ t.permissions ∧ t.Grants u o p := by
  rw [permissionsForUser, List.mem_insertionSort, List.mem_dedup, mem_permissionRows]

theorem nodup_permissionsForUser : (permissionsForUser env u o t).Nodup :=
  (List.perm_insertionSort _ _).nodup_iff.mpr (List.nodup_dedup _)

instance : Std.Total fun p q : Permission => permissionLe env p q = true where
  total p q := by
    have hresource := env.collate_total p.resource q.resource
    have haction := env.collate_total p.action q.action
    by_cases heq : p.resource = q.resource
    · simpa [permissionLe, heq] using haction
    · simpa [permissionLe, heq, Ne.symm heq] using hresource

instance : IsTrans Permission fun p q => permissionLe env p q = true where
  trans p q r hpq hqr := by
    simp only [permissionLe] at hpq hqr ⊢
    split at hpq
    · rename_i heq
      rw [heq]
      split at hqr
      · rename_i heq'
        rw [if_pos heq']
        exact env.collate_trans _ _ _ hpq hqr
      · rename_i hne
        rwa [if_neg hne]
    · rename_i hne
      split at hqr
      · rename_i heq'
        rwa [← heq', if_neg hne]
      · by_cases heq : p.resource = r.resource
        · exact absurd (env.collate_antisymm _ _ hpq (heq ▸ hqr)) hne
        · rw [if_neg heq]
          exact env.collate_trans _ _ _ hpq hqr

theorem permissionLe_antisymm {p q : Permission} (h : permissionLe env p q = true)
    (h' : permissionLe env q p = true) : p.resource = q.resource ∧ p.action = q.action := by
  simp only [permissionLe] at h h'
  by_cases heq : p.resource = q.resource
  · rw [if_pos heq] at h
    rw [if_pos heq.symm] at h'
    exact ⟨heq, env.collate_antisymm _ _ h h'⟩
  · rw [if_neg heq] at h
    rw [if_neg (Ne.symm heq)] at h'
    exact absurd (env.collate_antisymm _ _ h h') heq

theorem sorted_permissionsForUser :
    (permissionsForUser env u o t).Pairwise fun p q => permissionLe env p q = true :=
  List.pairwise_insertionSort _ _

theorem getPermissionsForUser_ends (env : Environment) (u : Uuid) (o : Option Uuid) (s : Solo) :
    Ends env (getPermissionsForUser env u o) s (.ok (permissionsForUser env u o s.view)) s.touch :=
  ends_select fun _ hp => (mem_permissionsForUser.mp hp).1

end UserRoleRepository

namespace AuthorizationService
variable {s : Solo}

theorem find?_active (hs : t.Schema) :
    ((t.users.find? (·.id = u)).filter (·.isActive)).isSome ↔ t.Active u := by
  have hkeys : ∀ x : User, decide (x.id = u) = true → .primary .users u ∈ Table.users.keys x := by
    simp +contextual [Table.keys]
  constructor
  · intro h
    obtain ⟨x, hx⟩ := Option.isSome_iff_exists.mp h
    obtain ⟨hfind, hactive⟩ := Option.filter_eq_some_iff.mp hx
    exact ⟨x, List.mem_of_find?_eq_some hfind, by simpa using List.find?_some hfind, hactive⟩
  · intro h
    obtain ⟨x, hx, hid, hactive⟩ := h
    have hfind := find?_of_key (τ := .users) hs hx hkeys (by simpa using hid)
    rw [show t.users.find? (·.id = u) = some x from hfind]
    simp [hactive]

theorem authorize_ends (hs : s.view.Schema) (r a : String) :
    ∃ s', Ends env (authorize env u r a o) s (.ok ⟨decide (s.view.Allows u r a o), r, a, o⟩) s' ∧
      s'.committed = s.committed ∧ s'.before = s.before := by
  have hlookup : Ends env (UserRepository.getById u) s (.ok (s.view.users.find? (·.id = u)))
    s.touch :=
    ends_lookup (τ := .users) (k := .primary .users u) (p := (·.id = u)) hs
    (by simp +contextual [Table.keys])
  have hactive := find?_active (u := u) hs
  cases hfind : (s.view.users.find? (·.id = u)).filter (·.isActive) with
  | none =>
      have hdenied : ¬ s.view.Allows u r a o := fun h => by simp [hfind, h.1] at hactive
      refine ⟨s.touch, hlookup.bind ?_, rfl, rfl⟩
      simp only [hfind, decide_eq_false hdenied]
      rfl
  | some x =>
      have huser : s.view.Active u := hactive.mp (by simp [hfind])
      refine ⟨s.touch.touch, hlookup.bind ?_, rfl, rfl⟩
      simp only [hfind]
      refine (UserRoleRepository.getPermissionsForUser_ends env u o s.touch).bind ?_
      have hallowed : (UserRoleRepository.permissionsForUser env u o s.view).any
          (fun p => p.resource = r ∧ p.action = a) = decide (s.view.Allows u r a o) := by
        rw [Bool.eq_iff_iff, List.any_eq_true]
        simp only [UserRoleRepository.mem_permissionsForUser, decide_eq_true_eq,
          Tables.Allows, huser, true_and]
        constructor
        · intro h
          obtain ⟨p, ⟨hp, hgrants⟩, hnamed⟩ := h
          exact ⟨p, hp, hnamed, hgrants⟩
        · intro h
          obtain ⟨p, hp, hnamed, hgrants⟩ := h
          exact ⟨p, ⟨hp, hgrants⟩, hnamed⟩
      rw [Solo.touch_view, hallowed]
      rfl

/-- What `get_user_permissions` answers. -/
def permissionsOf (env : Environment) (t : Tables) (u : Uuid) (o : Option Uuid) :
    List PermissionResponse :=
  (UserRoleRepository.permissionsForUser env u o t).map fun p =>
  ⟨p.id, p.resource, p.action, p.description⟩

theorem getUserPermissions_ends (env : Environment) (u : Uuid) (o : Option Uuid) (s : Solo) :
    Ends env (getUserPermissions env u o) s (.ok (permissionsOf env s.view u o)) s.touch :=
  (UserRoleRepository.getPermissionsForUser_ends env u o s).bind rfl

end AuthorizationService

/-- Statements that write nothing never wait. -/
theorem exec_read_total (env : Environment) {o : Stmt} (ho : o.Uses [] []) (n i : Nat)
    (g : Database) (l : Session) :
    ∃ x, exec env n i o g l = some x := by
  cases o with
  | insert τ draft =>
      cases τ
      case auditLogs => exact absurd (ho ⟨0⟩ 0) List.not_mem_nil
      all_goals exact absurd ho List.not_mem_nil
  | updateLastLoginAt _ _ | updateIsActive _ _ | revokeIfActive _ _ | updateRevokedAt _ _
  | updateReplacedBy _ _ | deleteRolePermission _ _ | deleteUserRole _ | deleteMembership _ =>
      exact absurd ho List.not_mem_nil
  | refresh τ id =>
      simp only [exec]
      split <;> exact ⟨_, rfl⟩
  | _ => exact ⟨_, rfl⟩

/-- A call that only reads is served at any time. -/
theorem Calls.read_served (p : Calls env) (req : Request) (hτ : req.tables = [])
    (ha : req.actions = []) :
    ∃ out p', Served (serve env) p req out p' := by
  have huses : (serve env req).All (Stmt.Uses [] []) := by
    refine Program.All.ensure ?_ (uses_issue (o := .rollback) trivial)
    have huses : Uses req.tables req.actions (call env req) := call_uses req
    rwa [hτ, ha] at huses
  have hstep : ∀ (o : Stmt) l (w : History env Request), o.Uses [] [] → True →
      ∃ r w' l', w.exec p.threads.length req o l = some (r, w', l') ∧ True := by
    intro o l w ho _
    obtain ⟨x, hx⟩ := exec_read_total env ho w.trace.length p.threads.length w.shared l
    exact ⟨_, _, _, World.exec_eq_some.mpr ⟨_, hx, rfl⟩, trivial⟩
  obtain ⟨out, l, w, hrun, -⟩ :=
    Program.run_total hstep huses (l := (machine env).start) (w := p.world) trivial
  exact ⟨out, _, l, w, hrun, rfl⟩

namespace Calls

/-- `authorize`, called now, allows the action or not. -/
def Decides (p : Calls env) (u : Uuid) (resource action : String) (o : Option Uuid)
    (allowed : Bool) : Prop :=
  ∃ p', Served (serve env) p (.authorize u resource action o)
    (.ok (.decision ⟨allowed, resource, action, o⟩)) p'

/-- `get_user_permissions`, called now, returns the list. -/
def Lists (p : Calls env) (u : Uuid) (o : Option Uuid) (ps : List PermissionResponse) : Prop :=
  ∃ p', Served (serve env) p (.getUserPermissions u o) (.ok (.permissions ps)) p'

section Answers
variable {p : Calls env} (hp : p.tables.Schema)
    (howner : ∀ e ∈ p.world.trace, e.pid < p.threads.length)
include hp howner

theorem decides_iff {r a : String} {allowed : Bool} :
    p.Decides u r a o allowed ↔ allowed = decide (p.tables.Allows u r a o) := by
  obtain ⟨s, hends, -⟩ := AuthorizationService.authorize_ends (u := u) (o := o)
    (s := .start p.world.trace.length p.tables) hp r a
  have hserve : Ends env (serve env (.authorize u r a o)) (.start p.world.trace.length p.tables)
      (.ok (.decision ⟨decide (p.tables.Allows u r a o), r, a, o⟩))
      ⟨s.step + 1, none, s.before, s.committed, s.committed⟩ :=
    Program.eval_ensure (hends.map Response.decision) rfl
  obtain ⟨out, p', hserved⟩ := p.read_served (.authorize u r a o) rfl rfl
  have hout := (served_ends hp howner hserve hserved).1
  subst hout
  constructor
  · intro h
    obtain ⟨p'', h⟩ := h
    have heq := (h.unique hserved).1
    simpa using heq
  · intro h
    exact ⟨p', h ▸ hserved⟩

theorem lists_iff {ps : List PermissionResponse} :
    p.Lists u o ps ↔ ps = AuthorizationService.permissionsOf env p.tables u o := by
  have hends := AuthorizationService.getUserPermissions_ends env u o
    (.start p.world.trace.length p.tables)
  have hserve : Ends env (serve env (.getUserPermissions u o))
    (.start p.world.trace.length p.tables)
      (.ok (.permissions (AuthorizationService.permissionsOf env p.tables u o))) _ :=
    Program.eval_ensure (hends.map Response.permissions) rfl
  obtain ⟨out, p', hserved⟩ := p.read_served (.getUserPermissions u o) rfl rfl
  have hout := (served_ends hp howner hserve hserved).1
  subst hout
  constructor
  · intro h
    obtain ⟨p'', h⟩ := h
    have heq := (h.unique hserved).1
    simpa using heq
  · intro h
    exact ⟨p', h ▸ hserved⟩

end Answers

theorem Sound.decides_iff {p : Calls env} {r a : String} {allowed : Bool} (h : p.Sound) :
    p.Decides u r a o allowed ↔ allowed = decide (p.tables.Allows u r a o) :=
  Calls.decides_iff h.inv.schema h.owner

theorem Sound.lists_iff {p : Calls env} {ps : List PermissionResponse} (h : p.Sound) :
    p.Lists u o ps ↔ ps = AuthorizationService.permissionsOf env p.tables u o :=
  Calls.lists_iff h.inv.schema h.owner

end Calls

/-- No two rows of `permissions` have the same resource and action. -/
theorem Tables.Schema.permission_unique (h : t.Schema) {p q : Permission} (hp : p ∈ t.permissions)
    (hq : q ∈ t.permissions) (hr : p.resource = q.resource) (ha : p.action = q.action) : p = q :=
  h.row_unique (τ := .permissions) (k := .permission p.resource p.action) hp hq
    (by simp [Table.keys]) (by simp [Table.keys, hr, ha])

theorem nodup_permissionsOf (env : Environment) (h : t.Schema) (u : Uuid) (o : Option Uuid) :
    ((AuthorizationService.permissionsOf env t u o).map fun x => (x.resource, x.action)).Nodup := by
  rw [AuthorizationService.permissionsOf, List.map_map]
  refine List.Nodup.map_on (fun p hp q hq heq => ?_) UserRoleRepository.nodup_permissionsForUser
  obtain ⟨hr, ha⟩ := Prod.mk.inj heq
  exact h.permission_unique (UserRoleRepository.mem_permissionsForUser.mp hp).1
    (UserRoleRepository.mem_permissionsForUser.mp hq).1 hr ha

theorem mem_permissionsOf {x : PermissionResponse} :
    x ∈ AuthorizationService.permissionsOf env t u o ↔
      ∃ p ∈ t.permissions, t.Grants u o p ∧ x = ⟨p.id, p.resource, p.action, p.description⟩ := by
  simp only [AuthorizationService.permissionsOf, List.mem_map,
    UserRoleRepository.mem_permissionsForUser]
  constructor
  · intro h
    obtain ⟨p, ⟨hp, hgrants⟩, rfl⟩ := h
    exact ⟨p, hp, hgrants, rfl⟩
  · intro h
    obtain ⟨p, hp, hgrants, rfl⟩ := h
    exact ⟨p, ⟨hp, hgrants⟩, rfl⟩

theorem sorted_permissionsOf :
    (AuthorizationService.permissionsOf env t u o).Pairwise fun x y =>
      if x.resource = y.resource then env.collate x.action y.action = true
      else env.collate x.resource y.resource = true := by
  rw [AuthorizationService.permissionsOf, List.pairwise_map]
  refine UserRoleRepository.sorted_permissionsForUser.imp fun {p q} h => ?_
  simp only [UserRoleRepository.permissionLe] at h
  split at h
  · rename_i heq
    simpa only [if_pos heq] using h
  · rename_i hne
    simpa only [if_neg hne] using h

/-- The order of the listing leaves no choice, so equal rows are listed equally. -/
theorem UserRoleRepository.permissionsForUser_ext {t' : Tables} (ht : t.Schema)
    (h : ∀ p, (p ∈ t'.permissions ∧ t'.Grants u o p) ↔ (p ∈ t.permissions ∧ t.Grants u o p)) :
    permissionsForUser env u o t' = permissionsForUser env u o t := by
  have hperm : (permissionsForUser env u o t').Perm (permissionsForUser env u o t) := by
    refine (List.perm_ext_iff_of_nodup nodup_permissionsForUser nodup_permissionsForUser).mpr
      fun p => ?_
    rw [mem_permissionsForUser, mem_permissionsForUser]
    exact h p
  refine hperm.eq_of_pairwise (fun p q hp hq hpq hqp => ?_) sorted_permissionsForUser
    sorted_permissionsForUser
  have hp' := (mem_permissionsForUser.mp (hperm.mem_iff.mp hp)).1
  have hq' := (mem_permissionsForUser.mp hq).1
  obtain ⟨hresource, haction⟩ := permissionLe_antisymm hpq hqp
  exact ht.permission_unique hp' hq' hresource haction

/-- The decision is an existence statement about four tables, the listing is all that it
ranges over, and what is allowed globally is allowed everywhere. -/
theorem permissions_resolve (ht : t.Schema) (u : Uuid) (o : Option Uuid) :
    (∀ r a, ∃ allowed, (Calls.fresh env t).Decides u r a o allowed ∧
      (allowed = true ↔
        (∃ x ∈ t.users, x.id = u ∧ x.isActive = true) ∧
        ∃ p ∈ t.permissions, (p.resource = r ∧ p.action = a) ∧
          ∃ ur ∈ t.userRoles, (ur.userId = u ∧ (ur.organizationId = none ∨ ur.organizationId = o)) ∧
            ∃ rp ∈ t.rolePermissions, rp.roleId = ur.roleId ∧ rp.permissionId = p.id)) ∧
    (∃ ps, (Calls.fresh env t).Lists u o ps ∧
      (ps.map fun x => (x.resource, x.action)).Nodup ∧
      (ps.Pairwise fun x y =>
        if x.resource = y.resource then env.collate x.action y.action = true
        else env.collate x.resource y.resource = true) ∧
      (∀ x, x ∈ ps ↔ ∃ p ∈ t.permissions, t.Grants u o p ∧
        x = ⟨p.id, p.resource, p.action, p.description⟩) ∧
      (t.Active u → ∀ r a, (∃ x ∈ ps, x.resource = r ∧ x.action = a) ↔
        (Calls.fresh env t).Decides u r a o true)) ∧
    ∀ r a, (Calls.fresh env t).Decides u r a none true →
      (Calls.fresh env t).Decides u r a o true := by
  have decides : ∀ o r a allowed, (Calls.fresh env t).Decides u r a o allowed ↔
      allowed = decide (t.Allows u r a o) :=
    fun o r a allowed => Calls.decides_iff (p := Calls.fresh env t) ht fun e he =>
    absurd he List.not_mem_nil
  refine ⟨fun r a => ⟨_, (decides o r a _).mpr rfl, decide_eq_true_iff⟩,
    ⟨AuthorizationService.permissionsOf env t u o, ?_, nodup_permissionsOf env ht u o,
      sorted_permissionsOf,
      fun x => mem_permissionsOf, fun hactive r a => ?_⟩, fun r a h => ?_⟩
  · exact (Calls.lists_iff (p := Calls.fresh env t) ht fun e he =>
      absurd he List.not_mem_nil).mpr rfl
  · rw [decides, eq_comm, decide_eq_true_iff]
    constructor
    · intro h
      obtain ⟨x, hx, hr, ha⟩ := h
      obtain ⟨p, hp, hgrants, rfl⟩ := mem_permissionsOf.mp hx
      exact ⟨hactive, p, hp, ⟨hr, ha⟩, hgrants⟩
    · intro h
      obtain ⟨-, p, hp, ⟨hr, ha⟩, hgrants⟩ := h
      exact ⟨_, mem_permissionsOf.mpr ⟨p, hp, hgrants, rfl⟩, hr, ha⟩
  · rw [decides, eq_comm, decide_eq_true_iff] at h ⊢
    obtain ⟨hactive, p, hp, hnamed, hgrants⟩ := h
    exact ⟨hactive, p, hp, hnamed, hgrants.global o⟩

/-- Of a member, in the organization and outside of it. -/
theorem permissions_resolve_smallTables :
    (∀ r a, ∃ allowed, (Calls.fresh plainEnvironment smallTables).Decides ⟨1⟩ r a (some ⟨9⟩)
      allowed ∧
      (allowed = true ↔ smallTables.Allows ⟨1⟩ r a (some ⟨9⟩))) ∧
    smallTables.Allows ⟨1⟩ "doc" "read" (some ⟨9⟩) ∧ ¬ smallTables.Allows ⟨1⟩ "doc" "read" none :=
  ⟨(permissions_resolve smallTables_ready.schema ⟨1⟩ (some ⟨9⟩)).1, by decide, by decide⟩

end SecureIam
