import SecureIam.Access.Footprints
import SecureIam.Access.Scopes
import SecureIam.Lib.Rbac

/-!
The tables as a policy of role-based access control: what the calls change of it they
change by its commands, each of which is enabled when it takes effect, and decisions are
those of the policy.
-/
namespace SecureIam
open Lib
variable {env : Environment} {t t' : Tables} {u x : Uuid} {o : Option Uuid} {q : Permission}
  {w : Write}

abbrev AccessCommand := Rbac.Command Uuid Uuid Uuid Uuid

/-- Who may do what, without names and times. -/
def Tables.policy (t : Tables) : Rbac.Policy Uuid Uuid Uuid Uuid where
  active := {u | t.Active u}
  roles := {x | ∃ role ∈ t.roles, role.id = x.1 ∧ role.organizationId = x.2}
  holds := {x | ∃ ur ∈ t.userRoles, ur.Matches x.1 x.2.1 x.2.2}
  carries := {x | ⟨x.1, x.2⟩ ∈ t.rolePermissions}

theorem Tables.policy_grants : t.policy.Grants u q.id o ↔ t.Grants u o q := by
  constructor
  · intro h
    obtain ⟨x, held, ⟨ur, hur, hu, rfl, rfl⟩, hcovers, hcarries⟩ := h
    exact ⟨ur, hur, ⟨hu, hcovers⟩, _, hcarries, rfl, rfl⟩
  · intro h
    obtain ⟨ur, hur, ⟨hu, hcovers⟩, rp, hrp, hrole, hperm⟩ := h
    have heq : rp = ⟨ur.roleId, q.id⟩ := by rw [← hrole, ← hperm]
    have hcarries : (ur.roleId, q.id) ∈ t.policy.carries := by
      change (⟨ur.roleId, q.id⟩ : RolePermission) ∈ t.rolePermissions
      exact heq ▸ hrp
    exact ⟨ur.roleId, ur.organizationId, ⟨ur, hur, hu, rfl, rfl⟩, hcovers, hcarries⟩

theorem Tables.policy_allows {r a : String} : t.Allows u r a o ↔
    ∃ q ∈ t.permissions, (q.resource = r ∧ q.action = a) ∧ t.policy.Allows u q.id o := by
  constructor
  · intro h
    obtain ⟨hactive, q, hq, hname, hgrants⟩ := h
    exact ⟨q, hq, hname, hactive, policy_grants.mpr hgrants⟩
  · intro h
    obtain ⟨q, hq, hname, hactive, hgrants⟩ := h
    exact ⟨hactive, q, hq, hname, policy_grants.mp hgrants⟩

namespace Write

/-- The command that a write may carry out. -/
def Commands : Write → AccessCommand → Prop
  | insert .users row, .enroll u => row.isActive = true ∧ u = row.id
  | setIsActive id active, .enroll u => active = true ∧ u = id
  | setIsActive id active, .suspend u => active = false ∧ u = id
  | insert .roles row, .define r home => r = row.id ∧ home = row.organizationId
  | insert .userRoles row, .assign u r o | deleteUserRole row, .revoke u r o => row.Matches u r o
  | insert .rolePermissions row, .grant r p | deleteRolePermission row, .withdraw r p =>
      row = ⟨r, p⟩
  | _, _ => False

/-- What the write does to the policy: nothing, or its command, which is enabled. -/
def Refines (w : Write) (t : Tables) : Prop :=
  (w.apply t).policy = t.policy ∨
    ∃ c, w.Commands c ∧ c.Enabled t.policy ∧ (w.apply t).policy = c.apply t.policy

theorem policy_congr (hactive : ∀ u, t'.Active u ↔ t.Active u) (hroles : t'.roles = t.roles)
    (huserRoles : t'.userRoles = t.userRoles)
    (hrolePermissions : t'.rolePermissions = t.rolePermissions) : t'.policy = t.policy := by
  simp only [Tables.policy, hactive, hroles, huserRoles, hrolePermissions]

theorem insertUser_refines {row : User} (hok : (insert .users row).Ok t) :
    (insert .users row).Refines t := by
  have hactive : ∀ u, ((insert .users row).apply t).Active u ↔
      t.Active u ∨ (row.isActive = true ∧ u = row.id) := by
    intro u
    change (∃ y ∈ t.users ++ [row], y.id = u ∧ y.isActive = true) ↔ _
    simp only [List.mem_append, List.mem_singleton, or_and_right, exists_or, exists_eq_left,
      Tables.Active]
    exact or_congr_right ⟨fun h => ⟨h.2, h.1.symm⟩, fun h => ⟨h.2.symm, h.1⟩⟩
  cases hrow : row.isActive with
  | false =>
      refine .inl (policy_congr (fun u => ?_) rfl rfl rfl)
      simp [hactive, hrow]
  | true =>
      refine .inr ⟨.enroll row.id, ⟨hrow, rfl⟩, fun hbefore => ?_, ?_⟩
      · obtain ⟨y, hy, hid, -⟩ := hbefore
        refine hok.adds (.primary .users row.id) List.mem_cons_self ?_
        exact Tables.hasKey_iff.mpr ⟨.users, y, hy, by simp [Table.keys, hid]⟩
      · have hset : {u | ((insert .users row).apply t).Active u} =
            {u | u ∈ t.policy.active ∨ u = row.id} := by
          ext u
          exact (hactive u).trans (or_congr_right (and_iff_right hrow))
        simp only [Tables.policy, Rbac.Command.apply, hset]
        rfl

theorem setIsActive_refines (id : Uuid) (active : Bool) :
    (setIsActive id active).Refines t := by
  have hactive : ∀ u, ((setIsActive id active).apply t).Active u ↔
      if u = id then active = true ∧ ∃ y ∈ t.users, y.id = id else t.Active u := by
    intro u
    simp only [Tables.Active, apply, List.mem_map, exists_exists_and_eq_and]
    by_cases hu : u = id
    · subst hu
      rw [if_pos rfl]
      constructor
      · intro h
        obtain ⟨y, hy, hid, hset⟩ := h
        by_cases hy' : y.id = u
        · exact ⟨by simpa [hy'] using hset, y, hy, hy'⟩
        · simp [hy'] at hid
      · intro h
        obtain ⟨rfl, y, hy, rfl⟩ := h
        exact ⟨y, hy, by simp⟩
    · rw [if_neg hu]
      refine exists_congr fun y => and_congr_right fun _ => ?_
      by_cases hy : y.id = id
      · simp [hy, Ne.symm hu]
      · simp [hy]
  by_cases hsame : ∀ u, ((setIsActive id active).apply t).Active u ↔ t.Active u
  · exact .inl (policy_congr hsame rfl rfl rfl)
  · cases active with
    | false =>
        have hheld : t.Active id := by
          by_contra hnot
          refine hsame fun u => (hactive u).trans ?_
          split
          · rename_i heq
            simp [heq, hnot]
          · rfl
        refine .inr ⟨.suspend id, ⟨rfl, rfl⟩, hheld, ?_⟩
        have hset : {u | ((setIsActive id false).apply t).Active u} =
            {u | u ∈ t.policy.active ∧ u ≠ id} := by
          ext u
          refine (hactive u).trans ?_
          by_cases hu : u = id
          · simp [hu]
          · simp [hu, Tables.policy]
        simp only [Tables.policy, Rbac.Command.apply, hset]
        rfl
    | true =>
        have hnew : ¬ t.Active id := by
          intro hheld
          refine hsame fun u => (hactive u).trans ?_
          split
          · rename_i heq
            obtain ⟨y, hy, hid, hon⟩ := hheld
            exact ⟨fun _ => heq ▸ ⟨y, hy, hid, hon⟩, fun _ => ⟨rfl, y, hy, hid⟩⟩
          · rfl
        have hknown : ∃ y ∈ t.users, y.id = id := by
          by_contra hnone
          refine hsame fun u => (hactive u).trans ?_
          split
          · rename_i heq
            simp [hnone, heq, hnew]
          · rfl
        refine .inr ⟨.enroll id, ⟨rfl, rfl⟩, hnew, ?_⟩
        have hset : {u | ((setIsActive id true).apply t).Active u} =
            {u | u ∈ t.policy.active ∨ u = id} := by
          ext u
          refine (hactive u).trans ?_
          by_cases hu : u = id
          · simp [hu, hknown]
          · simp [hu, Tables.policy]
        simp only [Tables.policy, Rbac.Command.apply, hset]
        rfl

theorem policy_insertRole (row : Role) : ((insert .roles row).apply t).policy =
    (Rbac.Command.define row.id row.organizationId).apply t.policy := by
  have hset : {x : Uuid × Option Uuid | ∃ role ∈ ((insert .roles row).apply t).roles,
      role.id = x.1 ∧ role.organizationId = x.2} =
      {x | x ∈ t.policy.roles ∨ x = (row.id, row.organizationId)} := by
    ext x
    change (∃ role ∈ t.roles ++ [row], role.id = x.1 ∧ role.organizationId = x.2) ↔ _
    simp only [List.mem_append, List.mem_singleton, or_and_right, exists_or, exists_eq_left,
      Tables.policy, Set.mem_ofPred_eq]
    exact or_congr_right ⟨fun h => Prod.ext h.1.symm h.2.symm, fun h => h ▸ ⟨rfl, rfl⟩⟩
  simp only [Tables.policy, Rbac.Command.apply, hset]
  rfl

theorem policy_insertUserRole (row : UserRole) : ((insert .userRoles row).apply t).policy =
    (Rbac.Command.assign row.userId row.roleId row.organizationId).apply t.policy := by
  have hset : {x : Uuid × Uuid × Option Uuid | ∃ ur ∈ ((insert .userRoles row).apply t).userRoles,
      ur.Matches x.1 x.2.1 x.2.2} =
      {x | x ∈ t.policy.holds ∨ x = (row.userId, row.roleId, row.organizationId)} := by
    ext x
    change (∃ ur ∈ t.userRoles ++ [row], ur.Matches x.1 x.2.1 x.2.2) ↔ _
    simp only [List.mem_append, List.mem_singleton, or_and_right, exists_or, exists_eq_left,
      Tables.policy, Set.mem_ofPred_eq]
    refine or_congr_right ⟨fun h => ?_, fun h => h ▸ ⟨rfl, rfl, rfl⟩⟩
    exact Prod.ext h.1.symm (Prod.ext h.2.1.symm h.2.2.symm)
  simp only [Tables.policy, Rbac.Command.apply, hset]
  rfl

theorem policy_insertRolePermission (row : RolePermission) :
    ((insert .rolePermissions row).apply t).policy =
      (Rbac.Command.grant row.roleId row.permissionId).apply t.policy := by
  have hset : {x : Uuid × Uuid | (⟨x.1, x.2⟩ : RolePermission) ∈
      ((insert .rolePermissions row).apply t).rolePermissions} =
      {x | x ∈ t.policy.carries ∨ x = (row.roleId, row.permissionId)} := by
    ext x
    change (⟨x.1, x.2⟩ : RolePermission) ∈ t.rolePermissions ++ [row] ↔ _
    rw [List.mem_append, List.mem_singleton]
    exact or_congr_right ⟨fun h => h ▸ rfl, fun h => h ▸ rfl⟩
  simp only [Tables.policy, Rbac.Command.apply, hset]
  rfl

theorem policy_deleteUserRole {row : UserRole} (ht : t.Schema) (hrow : row ∈ t.userRoles) :
    ((deleteUserRole row).apply t).policy =
      (Rbac.Command.revoke row.userId row.roleId row.organizationId).apply t.policy := by
  have hset : {x : Uuid × Uuid × Option Uuid | ∃ ur ∈ ((deleteUserRole row).apply t).userRoles,
      ur.Matches x.1 x.2.1 x.2.2} =
      {x | x ∈ t.policy.holds ∧ x ≠ (row.userId, row.roleId, row.organizationId)} := by
    ext x
    change (∃ ur ∈ t.userRoles.filter (· ≠ row), ur.Matches x.1 x.2.1 x.2.2) ↔ _
    constructor
    · intro h
      obtain ⟨ur, hur, hu, hr, ho⟩ := h
      obtain ⟨hur, hne⟩ := List.mem_filter.mp hur
      refine ⟨⟨ur, hur, hu, hr, ho⟩, fun heq => ?_⟩
      have hsame : ur = row := ht.row_unique (τ := .userRoles)
        (k := .assignment row.userId row.roleId row.organizationId) hur hrow
        (by simp [Table.keys, hu, hr, ho, heq]) (by simp [Table.keys])
      simp [hsame] at hne
    · intro h
      obtain ⟨⟨ur, hur, hu, hr, ho⟩, hne⟩ := h
      refine ⟨ur, List.mem_filter.mpr ⟨hur, decide_eq_true fun heq => hne ?_⟩, hu, hr, ho⟩
      subst heq
      exact Prod.ext hu.symm (Prod.ext hr.symm ho.symm)
  simp only [Tables.policy, Rbac.Command.apply, hset]
  rfl

theorem policy_deleteRolePermission (row : RolePermission) :
    ((deleteRolePermission row).apply t).policy =
      (Rbac.Command.withdraw row.roleId row.permissionId).apply t.policy := by
  have hset : {x : Uuid × Uuid | (⟨x.1, x.2⟩ : RolePermission) ∈
      ((deleteRolePermission row).apply t).rolePermissions} =
      {x | x ∈ t.policy.carries ∧ x ≠ (row.roleId, row.permissionId)} := by
    ext x
    change (⟨x.1, x.2⟩ : RolePermission) ∈ t.rolePermissions.filter (· ≠ row) ↔ _
    rw [List.mem_filter, decide_eq_true_eq]
    exact and_congr_right fun _ => not_congr ⟨fun h => h ▸ rfl, fun h => h ▸ rfl⟩
  simp only [Tables.policy, Rbac.Command.apply, hset]
  rfl

theorem insertRole_refines {row : Role} (hok : (insert .roles row).Ok t) :
    (insert .roles row).Refines t := by
  refine .inr ⟨.define row.id row.organizationId, ⟨rfl, rfl⟩, fun home hbefore => ?_,
    policy_insertRole row⟩
  obtain ⟨role, hrole, hid, -⟩ := hbefore
  refine hok.adds (.primary .roles row.id) List.mem_cons_self ?_
  exact Tables.hasKey_iff.mpr ⟨.roles, role, hrole, by simpa [Table.keys] using hid.symm⟩

theorem insertUserRole_refines {row : UserRole} (hok : (insert .userRoles row).Ok t)
    (hadmits : t.Admits row) : (insert .userRoles row).Refines t := by
  refine .inr ⟨.assign row.userId row.roleId row.organizationId, ⟨rfl, rfl, rfl⟩,
    ⟨?_, fun hbefore => ?_⟩, policy_insertUserRole row⟩
  · obtain ⟨role, hrole, hid, hhome⟩ := hadmits
    refine ⟨role.organizationId, ⟨role, hrole, hid, rfl⟩, ?_⟩
    by_cases hglobal : role.organizationId = none
    · exact .inl hglobal
    · exact .inr (hhome hglobal).symm
  · obtain ⟨ur, hur, hu, hr, ho⟩ := hbefore
    refine hok.adds (.assignment row.userId row.roleId row.organizationId)
      (List.mem_cons_of_mem _ List.mem_cons_self) ?_
    exact Tables.hasKey_iff.mpr ⟨.userRoles, ur, hur, by simp [Table.keys, hu, hr, ho]⟩

theorem insertRolePermission_refines {row : RolePermission}
    (hok : (insert .rolePermissions row).Ok t) : (insert .rolePermissions row).Refines t := by
  refine .inr ⟨.grant row.roleId row.permissionId, rfl, ⟨?_, fun hbefore => ?_⟩,
    policy_insertRolePermission row⟩
  · have hkey := hok.requires (.primary .roles row.roleId) List.mem_cons_self
    obtain ⟨role, hrole, hid⟩ := List.any_eq_true.mp hkey
    have hid : role.id = row.roleId := by simpa [Table.keys, eq_comm, LockKey.table] using hid
    exact ⟨role.organizationId, role, hrole, hid, rfl⟩
  · refine hok.adds (.rolePermission row.roleId row.permissionId) List.mem_cons_self ?_
    exact Tables.hasKey_iff.mpr ⟨.rolePermissions, row, hbefore, List.mem_cons_self⟩

theorem deleteUserRole_refines (row : UserRole) (ht : t.Schema) :
    (deleteUserRole row).Refines t := by
  by_cases hrow : row ∈ t.userRoles
  · exact .inr ⟨.revoke row.userId row.roleId row.organizationId, ⟨rfl, rfl, rfl⟩,
      ⟨row, hrow, rfl, rfl, rfl⟩, policy_deleteUserRole ht hrow⟩
  · refine .inl (policy_congr (fun _ => .rfl) rfl ?_ rfl)
    exact List.filter_eq_self.mpr fun ur hur => decide_eq_true fun heq => hrow (heq ▸ hur)

theorem deleteRolePermission_refines (row : RolePermission) :
    (deleteRolePermission row).Refines t := by
  by_cases hrow : row ∈ t.rolePermissions
  · exact .inr ⟨.withdraw row.roleId row.permissionId, rfl, hrow, policy_deleteRolePermission row⟩
  · refine .inl (policy_congr (fun _ => .rfl) rfl rfl ?_)
    exact List.filter_eq_self.mpr fun rp hrp => decide_eq_true fun heq => hrow (heq ▸ hrp)

theorem setLastLoginAt_active (id : Uuid) (now : Time) :
    ((setLastLoginAt id now).apply t).Active u ↔ t.Active u := by
  simp only [Tables.Active, apply, List.mem_map, exists_exists_and_eq_and]
  refine exists_congr fun y => and_congr_right fun _ => ?_
  split <;> rfl

/-- A write that passed its checks is one command of the policy, or none. -/
theorem refines (ht : t.Schema) (hok : w.Ok t)
    (hadmits : ∀ ur, w = .insert .userRoles ur → t.Admits ur) : w.Refines t := by
  cases w with
  | insert τ row =>
      cases τ with
      | users => exact insertUser_refines hok
      | roles => exact insertRole_refines hok
      | userRoles => exact insertUserRole_refines hok (hadmits row rfl)
      | rolePermissions => exact insertRolePermission_refines hok
      | _ => exact .inl rfl
  | deleteRolePermission row => exact deleteRolePermission_refines row
  | deleteUserRole row => exact deleteUserRole_refines row ht
  | setIsActive id active => exact setIsActive_refines id active
  | setLastLoginAt id now =>
      exact .inl (policy_congr (fun _ => setLastLoginAt_active id now) rfl rfl rfl)
  | _ => exact .inl rfl

/-- The lasting keys that it adds are new. -/
def AddsTo (w : Write) (t : Tables) : Prop := ∀ k ∈ w.adds, ¬ k.table.Link → ¬ t.hasKey k

/-- A transaction is a run of commands. -/
theorem refines_view {ws : List Write} (ht : t.Schema) (hvalid : schema.Valid ws t)
    (hadmits : ∀ ur, .insert .userRoles ur ∈ ws → t.Admits ur) :
    ∃ cs, Rbac.Run t.policy cs (Store.view (T := tableStore) ws t).policy ∧
      ∀ c ∈ cs, ∃ w ∈ ws, w.Commands c ∧ w.AddsTo t := by
  induction ws generalizing t with
  | nil => exact ⟨[], .nil _, by simp⟩
  | cons w ws ih =>
      have hrest := ih (schema_apply ht hvalid.1) hvalid.2 fun ur hur =>
        (hadmits ur (List.mem_cons_of_mem _ hur)).mono (w.roles_apply t)
      obtain ⟨cs, hrun, hcs⟩ := hrest
      have hcs' : ∀ c ∈ cs, ∃ v ∈ w :: ws, v.Commands c ∧ v.AddsTo t := by
        intro c hc
        obtain ⟨v, hv, hcommands, hadds⟩ := hcs c hc
        exact ⟨v, List.mem_cons_of_mem _ hv, hcommands, fun k hk hlink hkey =>
          hadds k hk hlink (w.hasKey_apply hlink hkey)⟩
      have hw := refines ht hvalid.1 fun ur heq => hadmits ur (heq ▸ List.mem_cons_self)
      cases hw with
      | inl hsame => exact ⟨cs, hsame ▸ hrun, hcs'⟩
      | inr hcommand =>
          obtain ⟨c, hc, henabled, hafter⟩ := hcommand
          refine ⟨c :: cs, .cons henabled (hafter ▸ hrun), fun c' hc' => ?_⟩
          cases hc' with
          | head => exact ⟨w, List.mem_cons_self, hc, fun k hk _ => hvalid.1.adds k hk⟩
          | tail _ hc' => exact hcs' c' hc'

theorem mem_view_of_mem {ws : List Write} {ur : UserRole} (h : ur ∈ t.userRoles)
    (hkept : .deleteUserRole ur ∉ ws) : ur ∈ (Store.view (T := tableStore) ws t).userRoles := by
  induction ws generalizing t with
  | nil => exact h
  | cons w ws ih =>
      refine ih ?_ fun hlater => hkept (List.mem_cons_of_mem _ hlater)
      cases w with
      | insert τ row =>
          cases τ with
          | userRoles => exact List.mem_append_left _ h
          | _ => exact h
      | deleteUserRole row =>
          refine List.mem_filter.mpr ⟨h, decide_eq_true fun heq => hkept ?_⟩
          exact heq ▸ List.mem_cons_self
      | _ => exact h

theorem mem_view_of_insert {ws : List Write} {ur : UserRole} (h : .insert .userRoles ur ∈ ws)
    (hkept : .deleteUserRole ur ∉ ws) : ur ∈ (Store.view (T := tableStore) ws t).userRoles := by
  induction ws generalizing t with
  | nil => exact absurd h List.not_mem_nil
  | cons w ws ih =>
      have hkept' : .deleteUserRole ur ∉ ws := fun hlater => hkept (List.mem_cons_of_mem _ hlater)
      cases h with
      | head =>
          have hmem : ur ∈ ((insert .userRoles ur).apply t).userRoles :=
            List.mem_append_right _ (List.mem_singleton_self _)
          exact mem_view_of_mem (t := (insert .userRoles ur).apply t) hmem hkept'
      | tail _ h => exact ih h hkept'

end Write

namespace Request
variable {req : Request} {ws : List Write}

/-- The commands that a call stands for; only somebody new can register. -/
def Commands (t : Tables) : Request → AccessCommand → Prop
  | register _ _, .enroll u => ¬ t.hasKey (.primary .users u)
  | setIsActive u active, .enroll u' => active = true ∧ u' = u
  | setIsActive u active, .suspend u' => active = false ∧ u' = u
  | createRole _ _ o _, .define _ home => home = o
  | assignRole u r o _, .assign u' r' o' | revokeRole u r o _, .revoke u' r' o' =>
      u' = u ∧ r' = r ∧ o' = o
  | assignPermissionToRole r p _, .grant r' p' | removePermissionFromRole r p _, .withdraw r' p' =>
      r' = r ∧ p' = p
  | _, _ => False

theorem assignRole_of_issues {row : UserRole} (h : req.Issues (.insert .userRoles row)) :
    ∃ actor, req = .assignRole row.userId row.roleId row.organizationId actor := by
  cases hadmin : req.administration with
  | none =>
      obtain h | ⟨_, _, _, -, h, -⟩ | ⟨_, _, h⟩ | ⟨_, _, -, h⟩ := writes_of_plain hadmin h
      · simp [Write.table] at h
      all_goals cases h
  | some a =>
      obtain rfl := administration_request hadmin
      cases a with
      | assignRole u r o actor =>
          obtain ⟨rfl, rfl, rfl⟩ : row.Matches u r o := h.resolve_right id
          exact ⟨actor, rfl⟩
      | _ => exact (h.elim id id).elim

/-- A write of a call carries out a command of that call. -/
theorem commands_of_issues {c : AccessCommand} (h : req.Issues w) (hadds : w.AddsTo t)
    (hc : w.Commands c) : req.Commands t c := by
  cases hadmin : req.administration with
  | none =>
      obtain htable | ⟨_, _, x, rfl, rfl, -⟩ | ⟨_, _, rfl⟩ | ⟨_, _, rfl, rfl⟩ :=
        writes_of_plain hadmin h
      · cases w with
        | insert τ row => cases τ <;> first | exact hc.elim | simp [Write.table] at htable
        | deleteRolePermission | deleteUserRole | setIsActive => simp [Write.table] at htable
        | _ => exact hc.elim
      · cases c <;> try exact hc.elim
        obtain ⟨-, rfl⟩ := hc
        exact hadds (.primary .users x.id) List.mem_cons_self (LockKey.not_link (by decide))
      · exact hc.elim
      · cases c <;> first | exact hc.elim | exact hc
  | some a =>
      obtain rfl := administration_request hadmin
      have hmakes : a.Makes w := by
        have hfootprint : a.Footprint w := by cases a <;> exact h
        refine hfootprint.resolve_right fun htells => ?_
        cases w with
        | insert τ row => cases τ <;> first | exact hc | exact htells
        | _ => exact htells
      cases a with
      | createRole n d o actor =>
          cases w with
          | insert τ row =>
              cases τ <;> try exact hmakes.elim
              cases c <;> try exact hc.elim
              exact hc.2.trans hmakes.2.2.2
          | _ => exact hmakes.elim
      | assignRole u r o actor =>
          cases w with
          | insert τ row =>
              cases τ <;> try exact hmakes.elim
              cases c <;> try exact hc.elim
              exact ⟨hc.1.symm.trans hmakes.1, hc.2.1.symm.trans hmakes.2.1,
                hc.2.2.symm.trans hmakes.2.2⟩
          | _ => exact hmakes.elim
      | revokeRole u r o actor =>
          cases w with
          | deleteUserRole row =>
              cases c <;> try exact hc.elim
              exact ⟨hc.1.symm.trans hmakes.1, hc.2.1.symm.trans hmakes.2.1,
                hc.2.2.symm.trans hmakes.2.2⟩
          | _ => exact hmakes.elim
      | assignPermissionToRole r p actor =>
          cases w with
          | insert τ row =>
              cases τ <;> try exact hmakes.elim
              cases c <;> try exact hc.elim
              exact RolePermission.mk.inj (hc.symm.trans hmakes)
          | _ => exact hmakes.elim
      | removePermissionFromRole r p actor =>
          cases w with
          | deleteRolePermission row =>
              cases c <;> try exact hc.elim
              exact RolePermission.mk.inj (hc.symm.trans hmakes)
          | _ => exact hmakes.elim
      | _ =>
          cases w with
          | insert τ row => cases τ <;> first | exact hc.elim | exact hmakes.elim
          | _ => first | exact hc.elim | exact hmakes.elim

/-- The writes of one call that holds to the scopes insert nothing but admitted assignments. -/
theorem admits_of_scoped {ws : List Write} (hws : ∀ w ∈ ws, req.Issues w) (ht : t.Schema)
    (hvalid : schema.Valid ws t) (hscoped : (Store.view (T := tableStore) ws t).Scoped) :
    ∀ ur, .insert .userRoles ur ∈ ws → t.Admits ur := by
  intro ur hur
  obtain ⟨actor, rfl⟩ := assignRole_of_issues (hws _ hur)
  have hkept : .deleteUserRole ur ∉ ws := fun hdelete => (hws _ hdelete).elim id id
  have hmem := Write.mem_view_of_insert (t := t) hur hkept
  have hschema : (Store.view (T := tableStore) ws t).Schema := hvalid.good ht
  obtain ⟨role, hrole, hadmits⟩ := hscoped.admits hschema hmem
  refine ⟨role, ?_, hadmits⟩
  cases Write.row_of_view (τ := .roles) hrole with
  | inl hfound =>
      obtain ⟨role', hrole', rfl⟩ := hfound
      exact hrole'
  | inr hnew =>
      obtain ⟨role', hnew, -⟩ := hnew
      exact ((hws _ hnew).elim id id).elim

end Request

section Runs
variable {p p' : Calls env}

/-- From the tables of one moment to those of a later one: commands of the calls that `R` names. -/
def Tables.Commanded (R : Request → Prop) (t t' : Tables) : Prop :=
  t.Lasts t' ∧ ∃ cs, Rbac.Run t.policy cs t'.policy ∧
    ∀ c ∈ cs, ∃ req, R req ∧ req.Commands t c

theorem Request.Commands.earlier {req : Request} {c : AccessCommand} (h : req.Commands t' c)
    (hlasts : t.Lasts t') : req.Commands t c := by
  cases req with
  | register email password =>
      cases c with
      | enroll u => exact fun hkey => h (hlasts _ (LockKey.not_link (by decide)) hkey)
      | _ => exact h
  | _ => cases c <;> exact h

theorem Tables.Commanded.trans {R : Request → Prop} {t₁ t₂ t₃ : Tables}
    (h : Tables.Commanded R t₁ t₂) (h' : Tables.Commanded R t₂ t₃) :
    Tables.Commanded R t₁ t₃ := by
  obtain ⟨hlasts, cs, hrun, hcs⟩ := h
  obtain ⟨hlasts', cs', hrun', hcs'⟩ := h'
  refine ⟨fun k hk hkey => hlasts' k hk (hlasts k hk hkey), cs ++ cs', hrun.append hrun', ?_⟩
  intro c hc
  cases List.mem_append.mp hc with
  | inl hc => exact hcs c hc
  | inr hc =>
      obtain ⟨req, hreq, hcommands⟩ := hcs' c hc
      exact ⟨req, hreq, hcommands.earlier hlasts⟩

theorem Request.commanded {R : Request → Prop} {req : Request} (hreq : R req) (ht : t.Schema)
    (hscoped : t'.Scoped) (h : schema.Published req.Issues t t') : Tables.Commanded R t t' := by
  obtain ⟨ws, hws, hvalid, rfl⟩ := h
  refine ⟨Constraints.lasts_view (C := schema) ws t, ?_⟩
  obtain ⟨cs, hrun, hcs⟩ :=
    Write.refines_view ht hvalid (Request.admits_of_scoped hws ht hvalid hscoped)
  refine ⟨cs, hrun, fun c hc => ?_⟩
  obtain ⟨w, hw, hcommands, hadds⟩ := hcs c hc
  exact ⟨req, hreq, Request.commands_of_issues (hws w hw) hadds hcommands⟩

theorem Calls.ledger_kept (ht : t.Ready env) (hr : Reaches (serve env) (Calls.fresh env t) p) :
    (ledger env t (issues env)).Kept (fun _ _ _ _ _ => True) p :=
  (ledger_start ht.schema ht.undrawn).reaches (serve_ledger ht) hr

/-- A request that gets a statement through from here on. -/
def Calls.Meanwhile (p p' : Calls env) (req : Request) : Prop :=
  ∃ e ∈ p'.world.trace, p.world.trace.length ≤ e.step ∧ e.request = req

theorem Calls.commanded (ht : t.Ready env) (hs : t.Scoped)
    (hr : Reaches (serve env) (Calls.fresh env t) p) (hr' : Reaches (serve env) p p') :
    p.tables.Commanded (p.Meanwhile p') p'.tables := by
  refine ledger_across (R := p.Meanwhile p') (serve_ledger ht) hr' (Calls.ledger_kept ht hr)
    (fun hq => scoped_of_reaches ht hs (hr.trans hq)) (fun e he hstep => ⟨e, he, hstep, rfl⟩)
    (fun t => ⟨fun _ _ hkey => hkey, [], .nil _, by simp⟩) (fun h h' => h.trans h') ?_
  intro req es t₁ t₂ hreq _ hscoped ht₁ hpublished
  exact Request.commanded hreq ht₁ hscoped hpublished

/-- Whatever is called in whatever order refines a run of the policy: each command is enabled
and is one of a call that is served meanwhile, and decisions are the policy's. -/
theorem calls_refine_policy (ht : t.Ready env) (hs : t.Scoped)
    (hr : Reaches (serve env) (Calls.fresh env t) p) (hr' : Reaches (serve env) p p') :
    (∃ cs, Rbac.Run p.tables.policy cs p'.tables.policy ∧
      ∀ c ∈ cs, ∃ e ∈ p'.world.trace, p.world.trace.length ≤ e.step ∧
        e.request.Commands p.tables c) ∧
    ∀ u r a o b, p'.Decides u r a o b ↔ (b = true ↔ ∃ q ∈ p'.tables.permissions,
      (q.resource = r ∧ q.action = a) ∧ p'.tables.policy.Allows u q.id o) := by
  constructor
  · obtain ⟨-, cs, hrun, hcs⟩ := Calls.commanded ht hs hr hr'
    refine ⟨cs, hrun, fun c hc => ?_⟩
    obtain ⟨_, ⟨e, he, hstep, rfl⟩, hcommands⟩ := hcs c hc
    exact ⟨e, he, hstep, hcommands⟩
  · intro u r a o b
    have hp' := (Calls.sound_fresh ht).reaches (hr.trans hr')
    rw [hp'.decides_iff, ← Tables.policy_allows]
    cases b <;> simp

/-- A role is assigned while another assignment is revoked. -/
def swapped : Calls plainEnvironment :=
  (Calls.fresh plainEnvironment smallTables).played (serve plainEnvironment)
    [.spawn (.assignRole ⟨3⟩ ⟨5⟩ none ⟨1⟩), .spawn (.revokeRole ⟨1⟩ ⟨7⟩ (some ⟨9⟩) ⟨3⟩), .exec 0,
      .exec 1, .exec 0, .finish 1, .finish 0]

theorem smallTables_scoped : smallTables.Scoped := by
  intro ur hur role hrole
  simp only [smallTables, List.mem_cons, List.not_mem_nil, or_false] at hur hrole
  subst hur
  cases hrole with
  | inl h => simp [h]
  | inr h => simp [h]

theorem calls_refine_policy_swapped :
    swapped.tables.userRoles.map (fun ur => (ur.userId, ur.roleId)) = [(⟨3⟩, ⟨5⟩)] ∧
    ∃ cs, Rbac.Run smallTables.policy cs swapped.tables.policy ∧
      ∀ c ∈ cs, ∃ e ∈ swapped.world.trace, 0 ≤ e.step ∧ e.request.Commands smallTables c :=
  ⟨by decide +kernel, (calls_refine_policy smallTables_ready smallTables_scoped .refl
    (Pool.played_reaches _ (Calls.fresh plainEnvironment smallTables) _)).1⟩

theorem Calls.permissions_constant (ht : t.Ready env)
    (hr : Reaches (serve env) (Calls.fresh env t) p) (hr' : Reaches (serve env) p p') :
    p'.tables.permissions = p.tables.permissions := by
  refine ledger_across (E := fun t t' : Tables => t'.permissions = t.permissions)
    (I := fun _ => True) (R := fun _ => True) (serve_ledger ht) hr' (Calls.ledger_kept ht hr)
    (fun _ => trivial) (fun _ _ _ => trivial) (fun _ => rfl) (fun h h' => h'.trans h) ?_
  intro req es t₁ t₂ _ _ _ ht₁ hpublished
  refine hpublished.across (E := fun t t' : Tables => t'.permissions = t.permissions) ht₁
    (fun _ => rfl) (fun h h' => h'.trans h) fun w t _ _ hw => ?_
  exact Write.rows_of_table (τ := .permissions) (Request.issues_not_permission hw)

namespace Request
variable {r a : String}

/-- The call may take from the user the permission of this name. -/
def CanTake (t : Tables) (u : Uuid) (r a : String) (o : Option Uuid) : Request → Prop
  | setIsActive u' active => active = false ∧ u' = u
  | revokeRole u' _ held _ => u' = u ∧ (held = none ∨ held = o)
  | removePermissionFromRole _ id _ =>
      ∃ q ∈ t.permissions, q.id = id ∧ q.resource = r ∧ q.action = a
  | _ => False

/-- The call may give it to the user. -/
def CanGive (t : Tables) (u : Uuid) (r a : String) (o : Option Uuid) : Request → Prop
  | register _ _ => ¬ t.hasKey (.primary .users u)
  | setIsActive u' active => active = true ∧ u' = u
  | assignRole u' _ held _ => u' = u ∧ (held = none ∨ held = o)
  | assignPermissionToRole _ id _ =>
      ∃ q ∈ t.permissions, q.id = id ∧ q.resource = r ∧ q.action = a
  | _ => False

theorem Commands.canTake {req : Request} {c : AccessCommand} (h : req.Commands t c)
    (hc : c.Takes u q.id o) (hq : q ∈ t.permissions) :
    req.CanTake t u q.resource q.action o := by
  cases c with
  | suspend u' =>
      cases req <;> try exact h.elim
      exact ⟨h.1, h.2.symm.trans hc⟩
  | revoke u' x held =>
      cases req <;> try exact h.elim
      exact ⟨h.1.symm.trans hc.1, h.2.2 ▸ hc.2⟩
  | withdraw x id =>
      cases req <;> try exact h.elim
      exact ⟨q, hq, hc.symm.trans h.2, rfl, rfl⟩
  | _ => exact hc.elim

theorem Commands.canGive {req : Request} {c : AccessCommand} (h : req.Commands t c)
    (hc : c.Gives u q.id o) (hq : q ∈ t.permissions) :
    req.CanGive t u q.resource q.action o := by
  cases c with
  | enroll u' =>
      obtain rfl : u' = u := hc
      cases req with
      | register email password => exact h
      | setIsActive id active => exact ⟨h.1, h.2.symm⟩
      | _ => exact h.elim
  | assign u' x held =>
      cases req <;> try exact h.elim
      exact ⟨h.1.symm.trans hc.1, h.2.2 ▸ hc.2⟩
  | grant x id =>
      cases req <;> try exact h.elim
      exact ⟨q, hq, hc.symm.trans h.2, rfl, rfl⟩
  | _ => exact hc.elim

end Request

/-- The statement that ends what holds of the tables, and the commands of its call. -/
theorem Calls.lost (ht : t.Ready env) (hs : t.Scoped)
    (hr : Reaches (serve env) (Calls.fresh env t) p) (hr' : Reaches (serve env) p p')
    {P : Tables → Prop} (hp : P p.tables) (hp' : ¬ P p'.tables) :
    ∃ e ∈ p'.world.trace, p.world.trace.length ≤ e.step ∧ P e.before.state ∧ ¬ P e.after.state ∧
      e.before.state.permissions = p.tables.permissions ∧
      e.after.state.permissions = p.tables.permissions ∧
      ∃ cs, Rbac.Run e.before.state.policy cs e.after.state.policy ∧
        ∀ c ∈ cs, e.request.Commands p.tables c := by
  obtain ⟨q, q', e, hq, hstep, hq', htrace, hbefore, hafter, hP, hnot⟩ :=
    hr'.lost (P := fun g : Database => P g.state) hp hp'
  have hplaced := (Calls.ledger_kept ht ((hr.trans hq).tail hstep)).inv.1.placed
  obtain ⟨old, hold⟩ := Reaches.trace hq
  obtain ⟨new, hnew⟩ := Reaches.trace hq'
  have hlast : e.step = q.world.trace.length := hplaced _ _ (by simp [htrace])
  have hle : p.world.trace.length ≤ e.step := by simp [hlast, hold]
  have hmem : e ∈ p'.world.trace := by simp [hnew, htrace]
  have hconstant := Calls.permissions_constant ht hr hq
  have hconstant' := Calls.permissions_constant ht hr (hq.tail hstep)
  obtain ⟨-, cs, hrun, hcs⟩ := Calls.commanded ht hs (hr.trans hq) (.single hstep)
  simp only [Calls.tables, hbefore, hafter] at hconstant hconstant' hrun
  refine ⟨e, hmem, hle, hP, hnot, hconstant, hconstant', cs, hrun, fun c hc => ?_⟩
  obtain ⟨_, ⟨e', he', hstep', rfl⟩, hcommands⟩ := hcs c hc
  rw [htrace, List.mem_append, List.mem_singleton] at he'
  obtain rfl : e' = e := by
    refine he'.resolve_left fun hearlier => ?_
    obtain ⟨n, hn⟩ := List.mem_iff_getElem?.mp hearlier
    have hlt := (List.getElem?_eq_some_iff.mp hn).1
    have hplace : e'.step = n := by
      refine hplaced n e' ?_
      rw [htrace, List.getElem?_append_left hlt, hn]
    omega
  exact hcommands.earlier (Calls.commanded ht hs hr hq).1

/-- Whatever is called in whatever order: a decision is only lost to a deactivation of its user,
a revocation that covers its scope or the removal of its permission from a role, and only gained
by one of the calls that undo these, or with a new account. -/
theorem decisions_explained (ht : t.Ready env) (hs : t.Scoped)
    (hr : Reaches (serve env) (Calls.fresh env t) p) (hr' : Reaches (serve env) p p') (u : Uuid)
    (r a : String) (o : Option Uuid) :
    (p.Decides u r a o true → p'.Decides u r a o false → ∃ e ∈ p'.world.trace,
      p.world.trace.length ≤ e.step ∧
      e.before.state.Allows u r a o ∧ ¬ e.after.state.Allows u r a o ∧
      e.request.CanTake p.tables u r a o) ∧
    (p.Decides u r a o false → p'.Decides u r a o true → ∃ e ∈ p'.world.trace,
      p.world.trace.length ≤ e.step ∧
      ¬ e.before.state.Allows u r a o ∧ e.after.state.Allows u r a o ∧
      e.request.CanGive p.tables u r a o) := by
  have hp := (Calls.sound_fresh ht).reaches hr
  have hp' := hp.reaches hr'
  simp only [hp.decides_iff, hp'.decides_iff, eq_comm (a := true), eq_comm (a := false),
    decide_eq_true_iff, decide_eq_false_iff_not]
  constructor
  · intro hbefore hafter
    obtain ⟨e, he, hstep, hallowed, hdenied, hq, hq', cs, hrun, hcs⟩ :=
      Calls.lost ht hs hr hr' (P := fun t => t.Allows u r a o) hbefore hafter
    refine ⟨e, he, hstep, hallowed, hdenied, ?_⟩
    rw [Tables.policy_allows, hq] at hallowed
    rw [Tables.policy_allows, hq'] at hdenied
    obtain ⟨x, hx, ⟨rfl, rfl⟩, hallows⟩ := hallowed
    have hlost : ¬ e.after.state.policy.Allows u x.id o := fun h => hdenied ⟨x, hx, ⟨rfl, rfl⟩, h⟩
    obtain ⟨c, hc, htakes⟩ := hrun.lost hallows hlost
    exact (hcs c hc).canTake htakes hx
  · intro hbefore hafter
    obtain ⟨e, he, hstep, hdenied, hallowed, hq, hq', cs, hrun, hcs⟩ :=
      Calls.lost ht hs hr hr' (P := fun t => ¬ t.Allows u r a o) hbefore (not_not.mpr hafter)
    refine ⟨e, he, hstep, hdenied, not_not.mp hallowed, ?_⟩
    rw [Tables.policy_allows, hq] at hdenied
    rw [not_not, Tables.policy_allows, hq'] at hallowed
    obtain ⟨x, hx, ⟨rfl, rfl⟩, hallows⟩ := hallowed
    have hlacked : ¬ e.before.state.policy.Allows u x.id o := fun h =>
      hdenied ⟨x, hx, ⟨rfl, rfl⟩, h⟩
    obtain ⟨c, hc, hgives⟩ := hrun.gained hlacked hallows
    exact (hcs c hc).canGive hgives hx

theorem decisions_explained_swapped :
    ∃ e ∈ swapped.world.trace, 0 ≤ e.step ∧
      ¬ e.before.state.Allows ⟨3⟩ "doc" "read" (some ⟨9⟩) ∧
      e.after.state.Allows ⟨3⟩ "doc" "read" (some ⟨9⟩) ∧
      e.request.CanGive smallTables ⟨3⟩ "doc" "read" (some ⟨9⟩) := by
  have hp := Calls.sound_fresh smallTables_ready
  have hr := Pool.played_reaches (serve plainEnvironment)
    (Calls.fresh plainEnvironment smallTables)
    [.spawn (.assignRole ⟨3⟩ ⟨5⟩ none ⟨1⟩), .spawn (.revokeRole ⟨1⟩ ⟨7⟩ (some ⟨9⟩) ⟨3⟩), .exec 0,
      .exec 1, .exec 0, .finish 1, .finish 0]
  refine (decisions_explained smallTables_ready smallTables_scoped .refl hr ⟨3⟩ "doc" "read"
    (some ⟨9⟩)).2 (hp.decides_iff.mpr (by decide +kernel))
    ((hp.reaches hr).decides_iff.mpr (by decide +kernel))

end Runs

namespace Administration
variable {actor : Uuid} {out : Except Error Response}

theorem policy_assigned (h : Outcome t (.assignRole u x o actor) (.ok .done) t') :
    t'.permissions = t.permissions ∧
      t'.policy = (Rbac.Command.assign u x o).apply t.policy := by
  cases h with
  | kept hv => exact absurd (key_of_kept hv) (by simp [key])
  | changed hc =>
      cases hc with
      | assignRole => exact ⟨rfl, Write.policy_insertUserRole (t := t) ⟨_, u, x, o⟩⟩

theorem policy_granted {id : Uuid}
    (h : Outcome t (.assignPermissionToRole x id actor) (.ok .done) t') :
    t'.permissions = t.permissions ∧ t'.policy = (Rbac.Command.grant x id).apply t.policy := by
  cases h with
  | kept hv => exact absurd (key_of_kept hv) (by simp [key])
  | changed hc =>
      cases hc with
      | assignPermissionToRole => exact ⟨rfl, Write.policy_insertRolePermission (t := t) ⟨x, id⟩⟩

/-- Of a role that exists, a permission is gone afterwards, whatever the outcome is. -/
theorem policy_withdrawn {id : Uuid} (hx : t.hasKey (.primary .roles x))
    (h : Outcome t (.removePermissionFromRole x id actor) out t') :
    t'.permissions = t.permissions ∧ t'.policy = (Rbac.Command.withdraw x id).apply t.policy := by
  have hmade : ∀ {rp : RolePermission}, rp.roleId = x → rp.permissionId = id →
      ((Write.deleteRolePermission rp).apply t).policy =
        (Rbac.Command.withdraw x id).apply t.policy := by
    intro rp hx hid
    rw [Write.policy_deleteRolePermission, hx, hid]
  cases h with
  | refused hv =>
      simp only [verdict] at hv
      split at hv
      · rename_i hnone
        obtain ⟨role, hrole, hid⟩ := List.any_eq_true.mp hx
        have hid : role.id = x := by simpa [Table.keys, eq_comm, LockKey.table] using hid
        exact absurd hid (by simpa using List.find?_eq_none.mp hnone role hrole)
      · split at hv <;> cases hv
  | kept hv =>
      simp only [verdict] at hv
      split at hv
      · cases hv
      · split at hv
        · rename_i hnone
          refine ⟨rfl, ?_⟩
          have hset : {y : Uuid × Uuid | y ∈ t.policy.carries ∧ y ≠ (x, id)} =
              t.policy.carries := by
            ext y
            refine and_iff_left_of_imp fun hy heq => ?_
            subst heq
            have hfree := List.find?_eq_none.mp hnone _ hy
            simp at hfree
          simp only [Rbac.Command.apply, hset]
        · cases hv
  | changed hc => cases hc with | removePermissionFromRole _ _ _ hx hid => exact ⟨rfl, hmade hx hid⟩
  | unrecorded hc =>
      cases hc with | removePermissionFromRole _ _ _ hx hid => exact ⟨rfl, hmade hx hid⟩

end Administration

/-- What the calls that give roles and permissions change of the decisions, exactly. -/
theorem grants_exact {p p' : Calls env} (ht : t.Ready env)
    (hr : Reaches (serve env) (Calls.fresh env t) p) :
    (∀ u x o actor, Served (serve env) p (.assignRole u x o actor) (.ok .done) p' →
      ∀ u' r a o', p'.Decides u' r a o' true ↔ p.Decides u' r a o' true ∨
        (u' = u ∧ (o = none ∨ o = o') ∧ p.tables.Active u' ∧ ∃ q ∈ p.tables.permissions,
          (q.resource = r ∧ q.action = a) ∧ ⟨x, q.id⟩ ∈ p.tables.rolePermissions)) ∧
    (∀ x id actor, Served (serve env) p (.assignPermissionToRole x id actor) (.ok .done) p' →
      ∀ u' r a o', p'.Decides u' r a o' true ↔ p.Decides u' r a o' true ∨
        ((∃ q ∈ p.tables.permissions, q.id = id ∧ q.resource = r ∧ q.action = a) ∧
          p.tables.Active u' ∧ ∃ ur ∈ p.tables.userRoles, ur.userId = u' ∧ ur.roleId = x ∧
            (ur.organizationId = none ∨ ur.organizationId = o'))) ∧
    ∀ x id actor out, Served (serve env) p (.removePermissionFromRole x id actor) out p' →
      p.tables.hasKey (.primary .roles x) →
      ∀ u' r a o', p'.Decides u' r a o' true ↔ p.tables.Active u' ∧ ∃ q ∈ p.tables.permissions,
        (q.resource = r ∧ q.action = a) ∧ ∃ ur ∈ p.tables.userRoles, ur.userId = u' ∧
          (ur.organizationId = none ∨ ur.organizationId = o') ∧
          ⟨ur.roleId, q.id⟩ ∈ p.tables.rolePermissions ∧ ¬ (ur.roleId = x ∧ q.id = id) := by
  have hp := (Calls.sound_fresh ht).reaches hr
  have hdecides : ∀ {p : Calls env}, p.Sound → ∀ {u r a o}, p.Decides u r a o true ↔
      ∃ q ∈ p.tables.permissions, (q.resource = r ∧ q.action = a) ∧
        p.tables.policy.Allows u q.id o := by
    intro p hp u r a o
    rw [hp.decides_iff, eq_comm, decide_eq_true_iff, Tables.policy_allows]
  refine ⟨fun u x o actor hs u' r a o' => ?_, fun x id actor hs u' r a o' => ?_,
    fun x id actor out hs hx u' r a o' => ?_⟩
  all_goals
    have hp' := hp.reaches hs.reaches
    rw [hdecides hp']
  · obtain ⟨hpermissions, hpolicy⟩ := Administration.policy_assigned
      (Administration.served (a := .assignRole u x o actor) hp hs)
    simp only [hdecides hp, hpermissions, hpolicy, Rbac.Policy.Allows, Rbac.Command.grants_assign]
    constructor
    · intro h
      obtain ⟨q, hq, hname, hactive, hgrants⟩ := h
      cases hgrants with
      | inl hgrants => exact .inl ⟨q, hq, hname, hactive, hgrants⟩
      | inr hnew => exact .inr ⟨hnew.1, hnew.2.1, hactive, q, hq, hname, hnew.2.2⟩
    · intro h
      cases h with
      | inl h =>
          obtain ⟨q, hq, hname, hactive, hgrants⟩ := h
          exact ⟨q, hq, hname, hactive, .inl hgrants⟩
      | inr h =>
          obtain ⟨hu, hcovers, hactive, q, hq, hname, hcarries⟩ := h
          exact ⟨q, hq, hname, hactive, .inr ⟨hu, hcovers, hcarries⟩⟩
  · obtain ⟨hpermissions, hpolicy⟩ := Administration.policy_granted
      (Administration.served (a := .assignPermissionToRole x id actor) hp hs)
    simp only [hdecides hp, hpermissions, hpolicy, Rbac.Policy.Allows, Rbac.Command.grants_grant]
    constructor
    · intro h
      obtain ⟨q, hq, hname, hactive, hgrants⟩ := h
      cases hgrants with
      | inl hgrants => exact .inl ⟨q, hq, hname, hactive, hgrants⟩
      | inr hnew =>
          obtain ⟨hid, held, ⟨ur, hur, hu, hx, hheld⟩, hcovers⟩ := hnew
          exact .inr ⟨⟨q, hq, hid, hname⟩, hactive, ur, hur, hu, hx, hheld ▸ hcovers⟩
    · intro h
      cases h with
      | inl h =>
          obtain ⟨q, hq, hname, hactive, hgrants⟩ := h
          exact ⟨q, hq, hname, hactive, .inl hgrants⟩
      | inr h =>
          obtain ⟨⟨q, hq, hid, hname⟩, hactive, ur, hur, hu, hx, hcovers⟩ := h
          exact ⟨q, hq, hname, hactive, .inr ⟨hid, _, ⟨ur, hur, hu, hx, rfl⟩, hcovers⟩⟩
  · obtain ⟨hpermissions, hpolicy⟩ := Administration.policy_withdrawn hx
      (Administration.served (a := .removePermissionFromRole x id actor) hp hs)
    simp only [hpermissions, hpolicy, Rbac.Policy.Allows, Rbac.Command.grants_withdraw]
    constructor
    · intro h
      obtain ⟨q, hq, hname, hactive, _, _, ⟨ur, hur, hu, rfl, rfl⟩, hcovers, hcarries, hkept⟩ := h
      exact ⟨hactive, q, hq, hname, ur, hur, hu, hcovers, hcarries, hkept⟩
    · intro h
      obtain ⟨hactive, q, hq, hname, ur, hur, hu, hcovers, hcarries, hkept⟩ := h
      exact ⟨q, hq, hname, hactive, _, _, ⟨ur, hur, hu, rfl, rfl⟩, hcovers, hcarries, hkept⟩

theorem grants_exact_small : ∃ (out : Except Error Response) (q : Calls plainEnvironment),
    Served (serve plainEnvironment) (Calls.fresh plainEnvironment smallTables)
      (.removePermissionFromRole ⟨7⟩ ⟨11⟩ ⟨1⟩) out q ∧
    (Calls.fresh plainEnvironment smallTables).Decides ⟨1⟩ "doc" "read" (some ⟨9⟩) true ∧
    ¬ q.Decides ⟨1⟩ "doc" "read" (some ⟨9⟩) true := by
  have hserial : ∃ q : Calls plainEnvironment, Serial (serve plainEnvironment)
      (Calls.fresh plainEnvironment smallTables)
      [(.removePermissionFromRole ⟨7⟩ ⟨11⟩ ⟨1⟩, .ok (.changed true))] q :=
    Serial.of_serveAll (by decide +kernel)
  obtain ⟨q, hserial⟩ := hserial
  cases hserial with
  | cons hserved hnil =>
      cases hnil
      refine ⟨_, _, hserved, ?_, fun hafter => ?_⟩
      · exact (Calls.sound_fresh smallTables_ready).decides_iff.mpr (by decide +kernel)
      · have hexact := (grants_exact smallTables_ready .refl).2.2 _ _ _ _ hserved
          (by decide +kernel) ⟨1⟩ "doc" "read" (some ⟨9⟩)
        exact absurd (hexact.mp hafter) (by decide +kernel)

end SecureIam
