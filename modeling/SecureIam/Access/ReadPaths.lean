import SecureIam.Access.Permissions
import SecureIam.Services.Alone
import SecureIam.Tokens.Reachable

/-!
The two listings of what a user holds: the roles, and the permissions of those roles.
-/
namespace SecureIam
open Lib App UserRoleRepository
variable {env : Environment} {t : Tables} {p : Calls env} {u : Uuid} {o : Option Uuid} {role : Role}

/-- A user holds a role in scope: globally, or in the organization. -/
def Tables.Holds (t : Tables) (u : Uuid) (o : Option Uuid) (role : Role) : Prop :=
  role ∈ t.roles ∧ ∃ ur ∈ t.userRoles, ur.roleId = role.id ∧ ur.userId = u ∧
    (ur.organizationId = none ∨ ur.organizationId = o)

/-- Some role is held globally and in the organization. -/
def Tables.HoldsTwice (t : Tables) (u : Uuid) (o : Option Uuid) : Prop :=
  o ≠ none ∧ ∃ ur ∈ t.userRoles, ∃ ur' ∈ t.userRoles, ur.roleId = ur'.roleId ∧
    (ur.userId = u ∧ ur.organizationId = none) ∧ ur'.userId = u ∧ ur'.organizationId = o

instance (t : Tables) (u : Uuid) (o : Option Uuid) : Decidable (t.HoldsTwice u o) :=
  inferInstanceAs (Decidable (_ ∧ ∃ _ ∈ _, ∃ _ ∈ _, _ ∧ _ ∧ _))

/-- A join on which each row of the left table is repeated for each match. -/
theorem nodup_join {α β : Type} {rows : List α} (hrows : rows.Nodup) (f : α → List β) :
    (rows.flatMap fun r => (f r).map fun _ => r).Nodup ↔ ∀ r ∈ rows, (f r).length ≤ 1 := by
  simp only [List.nodup_flatMap, List.map_const', List.nodup_replicate, and_iff_left_iff_imp]
  intro _
  refine hrows.imp fun {r r'} hne => ?_
  simp only [Function.onFun, List.disjoint_left, List.mem_replicate]
  intro x hx hx'
  exact hne (hx.2.symm.trans hx'.2)

/-- Two elements of a list of at most one are the same. -/
theorem eq_of_length_le_one {α : Type} {xs : List α} (h : xs.length ≤ 1) {x y : α} (hx : x ∈ xs)
    (hy : y ∈ xs) :
    x = y := by
  match xs with
  | [] => cases hx
  | [z] => rw [List.mem_singleton.mp hx, List.mem_singleton.mp hy]

theorem mem_roleRows : role ∈ roleRows u o t ↔ t.Holds u o role := by
  simp only [roleRows, List.mem_flatMap, List.mem_map, List.mem_filter, decide_eq_true_eq,
    inScope_iff]
  constructor
  · intro h
    obtain ⟨role', hrole, ur, ⟨hur, hid, huser, hscope⟩, rfl⟩ := h
    exact ⟨hrole, ur, hur, hid, huser, hscope⟩
  · intro h
    obtain ⟨hrole, ur, hur, hid, huser, hscope⟩ := h
    exact ⟨role, hrole, ur, ⟨hur, hid, huser, hscope⟩, rfl⟩

theorem mem_rolesForUser : role ∈ rolesForUser env u o t ↔ t.Holds u o role := by
  rw [rolesForUser, List.mem_insertionSort, mem_roleRows]

theorem mem_inScope {rows : List UserRole} {roleId : Uuid} {ur : UserRole} :
    ur ∈ rows.filter (fun ur => ur.roleId = roleId ∧ ur.userId = u ∧ inScope o ur) ↔
      ur ∈ rows ∧ ur.roleId = roleId ∧ ur.userId = u ∧
        (ur.organizationId = none ∨ ur.organizationId = o) := by
  simp only [List.mem_filter, decide_eq_true_eq, inScope_iff]

theorem Tables.Schema.assignment_unique (ht : t.Schema) {ur ur' : UserRole} (hur : ur ∈ t.userRoles)
    (hur' : ur' ∈ t.userRoles) (huser : ur.userId = ur'.userId) (hrole : ur.roleId = ur'.roleId)
    (hscope : ur.organizationId = ur'.organizationId) : ur = ur' :=
  ht.row_unique (τ := .userRoles) (k := .assignment ur.userId ur.roleId ur.organizationId) hur hur'
    (by simp [Table.keys]) (by simp [Table.keys, huser, hrole, hscope])

/-- A role is listed once for each of its assignments in scope. -/
theorem nodup_rolesForUser (ht : t.Schema) : (rolesForUser env u o t).Nodup ↔
    ¬ t.HoldsTwice u o := by
  have hroles : t.roles.Nodup := ht.nodup .roles
  rw [rolesForUser, (List.perm_insertionSort _ _).nodup_iff, roleRows, nodup_join hroles]
  constructor
  · intro hlist htwice
    obtain ⟨ho, ur, hur, ur', hur', hrole, ⟨huser, hglobal⟩, huser', hscope⟩ := htwice
    have hkey := ht.references .userRoles ur hur (.primary .roles ur.roleId)
      (by simp [Table.references])
    obtain ⟨role, hmem, hid⟩ : ∃ role ∈ t.roles, ur.roleId = role.id := by
      simpa [Tables.hasKey, Tables.rows, LockKey.table, Table.keys] using hkey
    have hne : ur ≠ ur' := fun heq => ho (hscope.symm.trans (heq ▸ hglobal))
    refine hne (eq_of_length_le_one (hlist role hmem) (mem_inScope.mpr ?_) (mem_inScope.mpr ?_))
    · exact ⟨hur, hid, huser, .inl hglobal⟩
    · exact ⟨hur', hrole.symm.trans hid, huser', .inr hscope⟩
  · intro hnot role hrole
    refine length_le_one ((ht.nodup .userRoles).filter _) fun ur hur ur' hur' => ?_
    obtain ⟨hmem, hid, huser, hscope⟩ := mem_inScope.mp hur
    obtain ⟨hmem', hid', huser', hscope'⟩ := mem_inScope.mp hur'
    refine ht.assignment_unique hmem hmem' (huser.trans huser'.symm) (hid.trans hid'.symm) ?_
    by_cases ho : o = none
    · subst ho
      rw [hscope.elim (fun h => h) fun h => h, hscope'.elim (fun h => h) fun h => h]
    · cases hscope with
      | inl hnone =>
          cases hscope' with
          | inl hnone' => rw [hnone, hnone']
          | inr horg' =>
              exact absurd ⟨ho, ur, hmem, ur', hmem', hid.trans hid'.symm, ⟨huser, hnone⟩, huser',
              horg'⟩ hnot
      | inr horg =>
          cases hscope' with
          | inl hnone' =>
              exact absurd ⟨ho, ur', hmem', ur, hmem, hid'.trans hid.symm, ⟨huser', hnone'⟩, huser,
              horg⟩ hnot
          | inr horg' => rw [horg, horg']

/-- The two listings of a user in an organization agree: each role that is held is listed
once, by name, and the permissions are those of the roles, each once. -/
structure ListingsAgree (env : Environment) (t : Tables) (u : Uuid) (o : Option Uuid)
    (roles : List Role) (permissions : List Permission) : Prop where
  once : roles.Nodup
  held : ∀ role, role ∈ roles ↔ t.Holds u o role
  ordered : roles.Pairwise fun a b => env.collate a.name b.name = true
  distinct : permissions.Nodup
  union : ∀ x, x ∈ permissions ↔ x ∈ t.permissions ∧ ∃ role ∈ roles, ∃ rp ∈ t.rolePermissions,
    rp.roleId = role.id ∧ rp.permissionId = x.id

theorem sorted_rolesForUser :
    (rolesForUser env u o t).Pairwise fun a b => env.collate a.name b.name = true := by
  have htotal : Std.Total fun a b : Role => env.collate a.name b.name = true :=
    ⟨fun a b => by simpa using env.collate_total a.name b.name⟩
  have htrans : IsTrans Role fun a b => env.collate a.name b.name = true :=
    ⟨fun _ _ _ hab hbc => env.collate_trans _ _ _ hab hbc⟩
  exact List.pairwise_insertionSort _ _

/-- A permission is granted through a role that the other listing has. -/
theorem grants_iff (ht : t.Schema) {x : Permission} :
    t.Grants u o x ↔ ∃ role ∈ rolesForUser env u o t,
    ∃ rp ∈ t.rolePermissions, rp.roleId = role.id ∧ rp.permissionId = x.id := by
  constructor
  · intro h
    obtain ⟨ur, hur, ⟨huser, hscope⟩, rp, hrp, hrole, hperm⟩ := h
    have hkey := ht.references .userRoles ur hur (.primary .roles ur.roleId)
      (by simp [Table.references])
    obtain ⟨role, hmem, hid⟩ : ∃ role ∈ t.roles, ur.roleId = role.id := by
      simpa [Tables.hasKey, Tables.rows, LockKey.table, Table.keys] using hkey
    exact ⟨role, mem_rolesForUser.mpr ⟨hmem, ur, hur, hid, huser, hscope⟩, rp, hrp,
      hrole.trans hid, hperm⟩
  · intro h
    obtain ⟨role, hrole, rp, hrp, hid, hperm⟩ := h
    obtain ⟨-, ur, hur, hur', huser, hscope⟩ := mem_rolesForUser.mp hrole
    exact ⟨ur, hur, ⟨huser, hscope⟩, rp, hrp, hid.trans hur'.symm, hperm⟩

/-- The listings agree for a user who holds no role both globally and in the organization,
and for no other. -/
theorem listings_agree_iff (hp : p.Reachable) (u : Uuid) (o : Option Uuid) :
    (∃ roles permissions, p.Reads (getRolesForUser env u o) roles ∧
      p.Reads (getPermissionsForUser env u o) permissions ∧
      ListingsAgree env p.tables u o roles permissions) ↔ ¬ p.tables.HoldsTwice u o := by
  have ht : p.tables.Schema := hp.sound.inv.schema
  have hroles : p.Reads (getRolesForUser env u o) (rolesForUser env u o p.tables) :=
    p.reads_select .roles _
  have hpermissions : p.Reads (getPermissionsForUser env u o)
    (permissionsForUser env u o p.tables) :=
    p.reads_select .permissions _
  rw [← (nodup_rolesForUser ht : (rolesForUser env u o p.tables).Nodup ↔ _)]
  constructor
  · intro h
    obtain ⟨roles, permissions, hreads, -, hagree⟩ := h
    rw [hroles.unique hreads]
    exact hagree.once
  · intro hnodup
    refine ⟨_, _, hroles, hpermissions, hnodup, fun role => mem_rolesForUser, sorted_rolesForUser,
      nodup_permissionsForUser, fun x => ?_⟩
    rw [mem_permissionsForUser, grants_iff ht]

/-- A user with a global role, and an organization that it is a member of. -/
def assignedGlobally : Calls plainEnvironment :=
  Calls.after plainEnvironment
    [.spawn (.register "a" "p"), .finish 0, .spawn (.createOrganization "o" ⟨2⟩), .finish 1,
      .spawn (.createRole "r" none none ⟨2⟩), .finish 2,
      .spawn (.addMember ⟨2⟩ ⟨16⟩ ⟨2⟩), .finish 3,
      .spawn (.assignRole ⟨2⟩ ⟨30⟩ none ⟨2⟩), .finish 4]

theorem listings_agree_assignedGlobally : ∃ roles permissions,
    assignedGlobally.Reads (getRolesForUser plainEnvironment ⟨2⟩ (some ⟨16⟩)) roles ∧
    assignedGlobally.Reads (getPermissionsForUser plainEnvironment ⟨2⟩ (some ⟨16⟩)) permissions ∧
    ListingsAgree plainEnvironment assignedGlobally.tables ⟨2⟩ (some ⟨16⟩) roles permissions :=
  (listings_agree_iff (Calls.reachable_after _ _) ⟨2⟩ (some ⟨16⟩)).mpr (by decide +kernel)

/-- The role is then assigned in the organization, too. -/
def assignedTwice : Calls plainEnvironment :=
  assignedGlobally.played (serve plainEnvironment)
    [.spawn (.assignRole ⟨2⟩ ⟨30⟩ (some ⟨16⟩) ⟨2⟩), .finish 5]

/-- The role is listed twice. -/
theorem listings_disagree : assignedTwice.Reachable ∧ ∃ role : Role,
    assignedTwice.Reads (getRolesForUser plainEnvironment ⟨2⟩ (some ⟨16⟩)) [role, role] ∧
    ¬ ∃ roles permissions, assignedTwice.Reads (getRolesForUser plainEnvironment ⟨2⟩ (some ⟨16⟩))
      roles ∧
      assignedTwice.Reads (getPermissionsForUser plainEnvironment ⟨2⟩ (some ⟨16⟩)) permissions ∧
      ListingsAgree plainEnvironment assignedTwice.tables ⟨2⟩ (some ⟨16⟩) roles permissions := by
  have hlist : rolesForUser plainEnvironment ⟨2⟩ (some ⟨16⟩) assignedTwice.tables =
      [⟨⟨30⟩, "r", none, false, none⟩, ⟨⟨30⟩, "r", none, false, none⟩] := by decide +kernel
  have hreads := assignedTwice.reads_select .roles (rolesForUser plainEnvironment ⟨2⟩ (some ⟨16⟩))
  rw [hlist] at hreads
  refine ⟨(Calls.reachable_after _ _).played _, _, hreads, fun h => ?_⟩
  obtain ⟨roles, permissions, hroles, -, hagree⟩ := h
  have hnodup := hagree.once
  rw [hroles.unique hreads] at hnodup
  simp at hnodup

end SecureIam
