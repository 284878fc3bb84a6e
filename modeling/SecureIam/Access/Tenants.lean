import SecureIam.Access.Revocation
import SecureIam.Access.Scopes

/-!
What is done in one organization, and what users of the others and users without one
see of it: nothing.
-/
namespace SecureIam
open Lib
variable {env : Environment} {p q p' : Calls env} {t t' t'' : Tables} {a : Uuid}

/-- The operations that act in organization `a`. -/
def Administration.ActsIn (t : Tables) (a : Uuid) : Administration → Prop
  | createRole _ _ o _ | assignRole _ _ o _ | revokeRole _ _ o _ => o = some a
  | assignPermissionToRole r _ _ | removePermissionFromRole r _ _ =>
      ∃ role ∈ t.roles, role.id = r ∧ role.organizationId = some a
  | addMember _ o _ | removeMember _ o _ => o = a
  | createOrganization _ _ => False

instance (t : Tables) (a : Uuid) : (x : Administration) → Decidable (x.ActsIn t a)
  | .createRole _ _ o _ | .assignRole _ _ o _ | .revokeRole _ _ o _ =>
      inferInstanceAs (Decidable (o = some a))
  | .assignPermissionToRole _ _ _ | .removePermissionFromRole _ _ _ =>
      inferInstanceAs (Decidable (∃ role ∈ t.roles, role.id = _ ∧ _))
  | .addMember _ o _ | .removeMember _ o _ => inferInstanceAs (Decidable (o = a))
  | .createOrganization _ _ => inferInstanceAs (Decidable False)

namespace Tables

/-- Two states of the tables between which decisions outside of organization `a` cannot tell. -/
structure SameOutside (a : Uuid) (t t' : Tables) : Prop where
  users : t'.users = t.users
  permissions : t'.permissions = t.permissions
  grants : ∀ u o x, o ≠ some a → (t'.Grants u o x ↔ t.Grants u o x)

theorem SameOutside.refl (a : Uuid) (t : Tables) : SameOutside a t t :=
  ⟨rfl, rfl, fun _ _ _ _ => Iff.rfl⟩

theorem SameOutside.trans (h : SameOutside a t t') (h' : SameOutside a t' t'') :
    SameOutside a t t'' :=
  ⟨h'.users.trans h.users, h'.permissions.trans h.permissions,
    fun u o x ho => (h'.grants u o x ho).trans (h.grants u o x ho)⟩

/-- An assignment under another organization or under none. -/
def Outside (t : Tables) (a : Uuid) (ur : UserRole) : Prop :=
  ur ∈ t.userRoles ∧ ur.organizationId ≠ some a

theorem grants_iff {u : Uuid} {o : Option Uuid} {x : Permission} (ho : o ≠ some a) :
    t.Grants u o x ↔ ∃ ur, t.Outside a ur ∧
      (ur.userId = u ∧ (ur.organizationId = none ∨ ur.organizationId = o)) ∧
      ∃ rp ∈ t.rolePermissions, rp.roleId = ur.roleId ∧ rp.permissionId = x.id := by
  constructor
  · intro h
    obtain ⟨ur, hur, hvisible, hrest⟩ := h
    refine ⟨ur, ⟨hur, fun hin => ?_⟩, hvisible, hrest⟩
    cases hvisible.2 with
    | inl hnone => cases hnone.symm.trans hin
    | inr hsome => exact ho (hsome.symm.trans hin)
  · intro h
    obtain ⟨ur, hur, hvisible, hrest⟩ := h
    exact ⟨ur, hur.1, hvisible, hrest⟩

/-- The assignments outside and the permissions of their roles are all that decisions
outside depend on. -/
theorem sameOutside_of_rows (husers : t'.users = t.users)
    (hpermissions : t'.permissions = t.permissions)
    (hassigned : ∀ ur, t'.Outside a ur ↔ t.Outside a ur)
    (hgranted : ∀ ur, t.Outside a ur → ∀ rp, rp.roleId = ur.roleId →
      (rp ∈ t'.rolePermissions ↔ rp ∈ t.rolePermissions)) : SameOutside a t t' := by
  refine ⟨husers, hpermissions, fun u o x ho => ?_⟩
  rw [grants_iff ho, grants_iff ho]
  refine exists_congr fun ur => ?_
  rw [hassigned ur]
  refine and_congr_right fun hur => and_congr_right fun _ => exists_congr fun rp => ?_
  constructor
  · intro h
    exact ⟨(hgranted ur hur rp h.2.1).mp h.1, h.2⟩
  · intro h
    exact ⟨(hgranted ur hur rp h.2.1).mpr h.1, h.2⟩

/-- A change of the assignments under the organization alone. -/
theorem sameOutside_of_assigned (h : t.SameGrants t')
    (hassigned : ∀ ur, t'.Outside a ur ↔ t.Outside a ur) :
    SameOutside a t t' :=
  sameOutside_of_rows h.users h.permissions hassigned fun _ _ _ _ => h.rolePermissions ▸ Iff.rfl

/-- A change of the permissions of a role of the organization: it is held nowhere else. -/
theorem sameOutside_of_granted (hscoped : t.Scoped) {role : Role} (hrole : role ∈ t.roles)
    (horg : role.organizationId = some a) (husers : t'.users = t.users)
    (hpermissions : t'.permissions = t.permissions) (hroles : t'.userRoles = t.userRoles)
    (hgranted : ∀ rp, rp.roleId ≠ role.id → (rp ∈ t'.rolePermissions ↔ rp ∈ t.rolePermissions)) :
    SameOutside a t t' := by
  refine sameOutside_of_rows husers hpermissions (fun ur => ?_) fun ur hur rp hrp => hgranted rp
    fun heq => ?_
  · rw [Outside, Outside, hroles]
  · have hheld := hscoped ur hur.1 role hrole (heq.symm.trans hrp) (horg ▸ Option.some_ne_none a)
    exact hur.2 (hheld.trans horg)

/-- What users outside of the organization are allowed and what they are listed. -/
theorem SameOutside.allows (h : SameOutside a t t') {u : Uuid} {r x : String} {o : Option Uuid}
    (ho : o ≠ some a) : t'.Allows u r x o ↔ t.Allows u r x o := by
  simp only [Allows, Active, h.users, h.permissions, h.grants _ o _ ho]

theorem SameOutside.permissionsOf (h : SameOutside a t t') (ht : t.Schema) (u : Uuid)
    {o : Option Uuid} (ho : o ≠ some a) :
    AuthorizationService.permissionsOf env t' u o =
      AuthorizationService.permissionsOf env t u o := by
  rw [AuthorizationService.permissionsOf, AuthorizationService.permissionsOf]
  refine congrArg _ (UserRoleRepository.permissionsForUser_ext ht fun x => ?_)
  rw [h.permissions, h.grants u o x ho]

theorem sameOutside_recorded (a : Uuid) (t : Tables) (row : AuditLog) :
    SameOutside a t (t.insert .auditLogs row) :=
  ⟨rfl, rfl, fun _ _ _ _ => Iff.rfl⟩

end Tables

namespace Administration
variable {x : Administration} {id : Uuid} {now : Time} {w : Write} {event : AuditRecord}
    {r : Response}
  {out : Except Error Response}

/-- A change in the organization is seen in the organization only. -/
theorem Changes.sameOutside (h : Changes t id now x w event r) (hx : x.ActsIn t a) (ht : t.Schema)
    (hscoped : t.Scoped) : t.SameOutside a (w.apply t) := by
  have role_of : ∀ {r : Uuid} {role : Role}, role ∈ t.roles → role.id = r →
      (∃ role ∈ t.roles, role.id = r ∧ role.organizationId = some a) → role.organizationId =
      some a := by
    intro r role hrole hid hx
    obtain ⟨role', hrole', hid', horg⟩ := hx
    have heq : role = role' := ht.row_unique (τ := .roles) (k := .primary .roles r) hrole hrole'
      (by simp [Table.keys, hid]) (by simp [Table.keys, hid'])
    exact heq ▸ horg
  cases h with
  | createRole _ _ | createOrganization _ | addMember _ _ _ | removeMember _ _ _ =>
      exact ⟨rfl, rfl, fun _ _ _ _ => Iff.rfl⟩
  | assignRole hrole hid hscope horg hfree huser =>
      refine Tables.sameOutside_of_assigned ⟨rfl, rfl, rfl⟩ fun ur => and_congr_left fun hout => ?_
      refine List.mem_append.trans (or_iff_left fun hnew => ?_)
      obtain rfl := List.mem_singleton.mp hnew
      exact hout hx
  | revokeRole hur hu hr ho =>
      refine Tables.sameOutside_of_assigned ⟨rfl, rfl, rfl⟩ fun ur' => and_congr_left fun hout => ?_
      refine List.mem_filter.trans (and_iff_left (decide_eq_true fun heq => hout ?_))
      exact heq ▸ ho.trans hx
  | assignPermissionToRole hrole hid hpermission hfree =>
      refine Tables.sameOutside_of_granted hscoped hrole (role_of hrole hid hx) rfl rfl rfl
        fun rp hne => ?_
      refine List.mem_append.trans (or_iff_left fun hnew => hne ?_)
      obtain rfl := List.mem_singleton.mp hnew
      exact hid.symm
  | removePermissionFromRole hrole hid hrp hr hp =>
      refine Tables.sameOutside_of_granted hscoped hrole (role_of hrole hid hx) rfl rfl rfl
        fun rp' hne => ?_
      refine List.mem_filter.trans (and_iff_left (decide_eq_true fun heq => hne ?_))
      exact heq ▸ hr.trans hid.symm

/-- Whatever an operation in the organization returns. -/
theorem Outcome.sameOutside (h : Outcome t x out t') (hx : x.ActsIn t a) (ht : t.Schema)
    (hscoped : t.Scoped) : t.SameOutside a t' := by
  cases h with
  | refused _ | kept _ => exact .refl a t
  | changed h _ _ _ _ _ =>
      exact (h.sameOutside hx ht hscoped).trans (Tables.sameOutside_recorded a _ _)
  | unrecorded h _ _ _ => exact h.sameOutside hx ht hscoped

end Administration

namespace Calls

/-- Operations in one organization, one after the other. -/
inductive ActsIn (a : Uuid) : Calls env → Calls env → Prop
  | nil (p : Calls env) : ActsIn a p p
  | cons {p q p' : Calls env} {x : Administration} {out : Except Error Response}
      (hx : x.ActsIn p.tables a)
      (h : Served (serve env) p x.request out q) (hrest : ActsIn a q p') : ActsIn a p p'

theorem ActsIn.reaches (h : ActsIn a p p') : Reaches (serve env) p p' := by
  induction h with
  | nil p => exact .refl
  | cons _ h _ ih => exact h.reaches.trans ih

theorem ActsIn.sameOutside (h : ActsIn a p p') (hp : p.Reachable) :
    p.tables.SameOutside a p'.tables := by
  induction h with
  | nil p => exact .refl a _
  | cons hx h _ ih =>
      have hstep := (Administration.served hp.sound h).sameOutside hx hp.sound.inv.schema hp.scoped
      exact hstep.trans (ih (hp.reaches h.reaches))

end Calls

/-- Nothing that is done in one organization is seen in another one, or by a user who
names none. -/
theorem tenants_isolated {b : Uuid} (hp : p.Reachable) (hab : a ≠ b) (h : Calls.ActsIn a p p')
    (u : Uuid) :
    (∀ r x allowed, p.Decides u r x (some b) allowed ↔ p'.Decides u r x (some b) allowed) ∧
    (∀ r x allowed, p.Decides u r x none allowed ↔ p'.Decides u r x none allowed) ∧
    (∀ ps, p.Lists u (some b) ps ↔ p'.Lists u (some b) ps) ∧
    ∀ ps, p.Lists u none ps ↔ p'.Lists u none ps := by
  have hsound := hp.sound
  have hsound' := hsound.reaches h.reaches
  have hsame := h.sameOutside hp
  have decisions : ∀ o : Option Uuid, o ≠ some a → ∀ r x allowed,
      p.Decides u r x o allowed ↔ p'.Decides u r x o allowed := by
    intro o ho r x allowed
    rw [hsound.decides_iff, hsound'.decides_iff, decide_eq_decide.mpr (hsame.allows ho)]
  have listings : ∀ o : Option Uuid, o ≠ some a → ∀ ps, p.Lists u o ps ↔ p'.Lists u o ps := by
    intro o ho ps
    rw [hsound.lists_iff, hsound'.lists_iff, hsame.permissionsOf hsound.inv.schema u ho]
  have hb : some b ≠ some a := fun heq => hab (Option.some.inj heq).symm
  exact ⟨decisions _ hb, decisions none (Option.some_ne_none a).symm, listings _ hb,
    listings none (Option.some_ne_none a).symm⟩

/-- Two organizations, and a member of the first who holds its role there. -/
def twoTenants : Calls plainEnvironment :=
  heldThere.played (serve plainEnvironment) [.spawn (.createOrganization "other" ⟨2⟩), .finish 6]

/-- The role loses its permission: the member loses it in the first organization, and
nothing else changes. -/
theorem tenants_isolated_twoTenants : ∃ p' : Calls plainEnvironment,
    Served (serve plainEnvironment) twoTenants (.removePermissionFromRole ⟨32⟩ ⟨11⟩ ⟨2⟩)
      (.ok (.changed true)) p' ∧
    twoTenants.tables.Allows ⟨2⟩ "doc" "read" (some ⟨16⟩) ∧
    ¬ Tables.Allows p'.world.shared.state ⟨2⟩ "doc" "read" (some ⟨16⟩) ∧
    (∀ u r x allowed, twoTenants.Decides u r x (some ⟨100⟩) allowed ↔ Calls.Decides p' u r x
      (some ⟨100⟩) allowed) ∧
    ∀ u r x allowed, twoTenants.Decides u r x none allowed ↔
      Calls.Decides p' u r x none allowed := by
  have hreachable : heldThere.Reachable :=
    ⟨onePermission, onePermission_seeded, Pool.played_reaches _ _ _⟩
  have htwo : twoTenants.Reachable := hreachable.played _
  have hserved : ∃ p' : Calls plainEnvironment,
      Served (serve plainEnvironment) twoTenants (.removePermissionFromRole ⟨32⟩ ⟨11⟩ ⟨2⟩)
        (.ok (.changed true)) p' ∧
      decide (¬ Tables.Allows p'.world.shared.state ⟨2⟩ "doc" "read" (some ⟨16⟩)) = true :=
    Served.of_run_world (f := fun w : History plainEnvironment Request =>
      decide (¬ Tables.Allows w.shared.state ⟨2⟩ "doc" "read" (some ⟨16⟩))) (by decide +kernel)
  obtain ⟨p', hserved, hdenied⟩ := hserved
  have hacts : Calls.ActsIn ⟨16⟩ twoTenants p' :=
    .cons (x := .removePermissionFromRole ⟨32⟩ ⟨11⟩ ⟨2⟩) (by decide +kernel) hserved (.nil p')
  have hisolated := tenants_isolated (b := ⟨100⟩) htwo (by decide) hacts
  exact ⟨p', hserved, by decide +kernel, of_decide_eq_true hdenied, fun u => (hisolated u).1,
    fun u => (hisolated u).2.1⟩

end SecureIam
