import SecureIam.Db.Migrations
import SecureIam.Db.Schema

/-!
The revisions that seed rows: `ca306aad2376`, the default roles and permissions, and the two
later permissions for `Admin`. Each `downgrade()` takes back what its `upgrade()` inserted.
-/
namespace SecureIam

/-- The constraints of the later revision, whose new columns are all NULL. -/
def PhaseTwo.Tables.Schema (d : PhaseTwo.Tables) : Prop := (Migrations.upgrade d).Schema

namespace Migrations
variable {α : Type}

/-- An INSERT of one row: no row may have a key of it already. -/
def insertRow (keys : α → List LockKey) (rows : List α) (row : α) : Except Error (List α) :=
  if rows.any fun r => (keys r).any (· ∈ keys row) then .error .integrityError
  else .ok (rows ++ [row])

def insertRows (keys : α → List LockKey) (rows new : List α) : Except Error (List α) :=
  new.foldlM (insertRow keys) rows

def roleKeys (role : PhaseTwo.Role) : List LockKey := [.primary .roles role.id, .roleName role.name]

/-- `ROLES` -/
def defaultRoles : List (String × String × Bool) :=
  [("Admin", "Full administrative access to the system", true),
    ("Manager", "Manages documents and team members", true),
    ("Developer", "Can view and edit documents", true),
    ("Intern", "Read-only access to documents", true)]

/-- `PERMISSIONS` -/
def defaultPermissions : List (String × String × String) :=
  [("document", "view", "View documents"),
    ("document", "edit", "Edit documents"),
    ("document", "delete", "Delete documents"),
    ("role", "manage", "Create roles and manage role-permission assignments"),
    ("user", "manage", "Assign or revoke roles for users")]

def roleNames : List String := defaultRoles.map (·.1)

def permissionPairs : List (String × String) :=
  defaultPermissions.map fun (resource, action, _) => (resource, action)

/-- `ROLE_PERMISSION_MAP` -/
def rolePermissionMap : List (String × String × String) :=
  [("Admin", "document", "view"),
    ("Admin", "document", "edit"),
    ("Admin", "document", "delete"),
    ("Admin", "role", "manage"),
    ("Admin", "user", "manage"),
    ("Manager", "document", "view"),
    ("Manager", "document", "edit"),
    ("Manager", "document", "delete"),
    ("Manager", "user", "manage"),
    ("Developer", "document", "view"),
    ("Developer", "document", "edit"),
    ("Intern", "document", "view")]

/-- The server draws the ids. -/
def newRoles (draw : Nat → Uuid) : List PhaseTwo.Role :=
  defaultRoles.mapIdx fun i (name, description, isSystem) =>
    ⟨draw i, name, some description, isSystem⟩

def newPermissions (draw : Nat → Uuid) : List Permission :=
  defaultPermissions.mapIdx fun i (resource, action, description) =>
    ⟨draw (defaultRoles.length + i), resource, action, some description⟩

/-- `SELECT r.id, p.id FROM roles r JOIN permissions p ON true WHERE ...` -/
def newMappings (roles : List PhaseTwo.Role) (permissions : List Permission) :
    List RolePermission :=
  roles.flatMap fun role =>
    (permissions.filter fun p => (role.name, p.resource, p.action) ∈ rolePermissionMap).map
      fun p => ⟨role.id, p.id⟩

/-- `upgrade()` of `ca306aad2376` -/
def upgradeDefaults (draw : Nat → Uuid) (d : PhaseTwo.Tables) : Except Error PhaseTwo.Tables := do
  let roles ← insertRows roleKeys d.roles (newRoles draw)
  let permissions ← insertRows Table.permissions.keys d.permissions (newPermissions draw)
  let rolePermissions ← insertRows Table.rolePermissions.keys d.rolePermissions
    (newMappings roles permissions)
  return { d with roles := roles, permissions := permissions, rolePermissions := rolePermissions }

/-- `downgrade()` of `ca306aad2376`. Roles and permissions that go take with them, by
`ON DELETE CASCADE`, whatever mappings and assignments of them there are. -/
def downgradeDefaults (d : PhaseTwo.Tables) : PhaseTwo.Tables :=
  let roleIds := (d.roles.filter (·.name ∈ roleNames)).map (·.id)
  let permissionIds :=
    (d.permissions.filter fun p => (p.resource, p.action) ∈ permissionPairs).map (·.id)
  let rolePermissions := d.rolePermissions.filter fun rp =>
    ¬ (rp.roleId ∈ roleIds ∧ rp.permissionId ∈ permissionIds)
  { d with
    roles := d.roles.filter (·.name ∉ roleNames)
    permissions := d.permissions.filter fun p => (p.resource, p.action) ∉ permissionPairs
    rolePermissions := rolePermissions.filter fun rp =>
      rp.roleId ∉ roleIds ∧ rp.permissionId ∉ permissionIds
    userRoles := d.userRoles.filter (·.roleId ∉ roleIds) }

/-- `SELECT r.id, p.id FROM roles r JOIN permissions p ON ... WHERE r.name = 'Admin'` -/
def adminMappings (resource action : String) (roles : List Role)
    (permissions : List Permission) : List RolePermission :=
  (roles.filter (·.name = "Admin")).flatMap fun role =>
    (permissions.filter fun p => p.resource = resource ∧ p.action = action).map
      fun p => ⟨role.id, p.id⟩

/-- A permission and its mapping to `Admin`. -/
def seedPermission (id : Uuid) (resource action description : String) (t : Tables) :
    Except Error Tables := do
  let permissions ← insertRows Table.permissions.keys t.permissions
    [⟨id, resource, action, some description⟩]
  let rolePermissions ← insertRows Table.rolePermissions.keys t.rolePermissions
    (adminMappings resource action t.roles permissions)
  return { t with permissions := permissions, rolePermissions := rolePermissions }

/-- `upgrade()` of `97122fa13dcc` -/
def upgradeOrganizationManage (id : Uuid) : Tables → Except Error Tables :=
  seedPermission id "organization" "manage" "Create organizations and manage their membership"

/-- `upgrade()` of `cbf5b83aa3f8` -/
def upgradeAuditView (id : Uuid) : Tables → Except Error Tables :=
  seedPermission id "audit" "view" "View the audit log"

/-- `alembic upgrade head` at revision `16b0325bd7db`. -/
def upgradeHead (draw : Nat → Uuid) (d : PhaseTwo.Tables) : Except Error Tables := do
  let d ← upgradeDefaults draw d
  let t ← upgradeOrganizationManage (draw 9) (upgrade d)
  upgradeAuditView (draw 10) t

/-- `alembic downgrade 16b0325bd7db` at the head. -/
def downgradeHead (t : Tables) : Except Error PhaseTwo.Tables := do
  let d ← downgradeFrom .seedAuditView t
  return downgradeDefaults d

theorem ok_of_bind {β : Type} {x : Except Error α} {f : α → Except Error β} {b : β}
    (h : x >>= f = .ok b) : ∃ a, x = .ok a ∧ f a = .ok b := by
  cases x with
  | ok a => exact ⟨a, rfl, h⟩
  | error e => cases h

section Insertions
variable {keys : α → List LockKey} {rows new rows' : List α}

/-- No two rows share a key. -/
def Distinct (keys : α → List LockKey) (rows : List α) : Prop :=
  rows.Pairwise fun r r' => ∀ k ∈ keys r, k ∉ keys r'

theorem insertRow_eq_ok {row : α} : insertRow keys rows row = .ok rows' ↔
    rows' = rows ++ [row] ∧ ∀ r ∈ rows, ∀ k ∈ keys r, k ∉ keys row := by
  rw [insertRow]
  split
  · rename_i hclash
    simp only [List.any_eq_true, decide_eq_true_eq] at hclash
    obtain ⟨r, hr, k, hk, hk'⟩ := hclash
    simp only [reduceCtorEq, false_iff]
    exact fun h => h.2 r hr k hk hk'
  · rename_i hfree
    simp only [List.any_eq_true, decide_eq_true_eq, not_exists, not_and] at hfree
    simp only [Except.ok.injEq]
    exact ⟨fun h => ⟨h.symm, hfree⟩, fun h => h.1.symm⟩

theorem distinct_snoc {row : α} : Distinct keys (rows ++ [row]) ↔
    Distinct keys rows ∧ ∀ r ∈ rows, ∀ k ∈ keys r, k ∉ keys row := by
  simp [Distinct, List.pairwise_append]

theorem insertRows_eq_ok (h : Distinct keys rows) : insertRows keys rows new = .ok rows' ↔
    rows' = rows ++ new ∧ Distinct keys (rows ++ new) := by
  induction new generalizing rows with
  | nil =>
      simp only [insertRows, List.foldlM_nil, List.append_nil, h, and_true]
      exact ⟨fun heq => (Except.ok.inj heq).symm, fun heq => heq ▸ rfl⟩
  | cons row new ih =>
      have hstep : insertRows keys rows (row :: new) =
          (insertRow keys rows row).bind fun rows => insertRows keys rows new := rfl
      have hassoc : rows ++ row :: new = (rows ++ [row]) ++ new := by simp
      rw [hstep, hassoc]
      cases hrow : insertRow keys rows row with
      | ok rows₁ =>
          obtain ⟨rfl, hfree⟩ := insertRow_eq_ok.mp hrow
          exact ih (distinct_snoc.mpr ⟨h, hfree⟩)
      | error e =>
          simp only [Except.bind, reduceCtorEq, false_iff, not_and]
          intro _ hdistinct
          have hsnoc := distinct_snoc.mp (hdistinct.sublist (List.sublist_append_left _ _))
          rw [insertRow_eq_ok.mpr ⟨rfl, hsnoc.2⟩] at hrow
          cases hrow

theorem filter_append_new {p : α → Bool} (hrows : ∀ a ∈ rows, ¬ p a) (hnew : ∀ a ∈ new, p a) :
    (rows ++ new).filter p = new := by
  rw [List.filter_append, List.filter_eq_nil_iff.mpr hrows, List.filter_eq_self.mpr hnew,
    List.nil_append]

theorem filter_append_old {p : α → Bool} (hrows : ∀ a ∈ rows, p a) (hnew : ∀ a ∈ new, ¬ p a) :
    (rows ++ new).filter p = rows := by
  rw [List.filter_append, List.filter_eq_self.mpr hrows, List.filter_eq_nil_iff.mpr hnew,
    List.append_nil]

end Insertions

section Schema
variable {t t' : Tables} {τ : Table}

def insertAll (τ : Table) (new : List τ.Row) (t : Tables) : Tables :=
  new.foldl (fun t row => t.insert τ row) t

theorem insertAll_roles (new : List Role) (t : Tables) :
    insertAll .roles new t = { t with roles := t.roles ++ new } := by
  induction new generalizing t with
  | nil => simp [insertAll]
  | cons row new ih =>
      refine (ih (t.insert .roles row)).trans ?_
      simp [Tables.insert]

theorem insertAll_permissions (new : List Permission) (t : Tables) :
    insertAll .permissions new t = { t with permissions := t.permissions ++ new } := by
  induction new generalizing t with
  | nil => simp [insertAll]
  | cons row new ih =>
      refine (ih (t.insert .permissions row)).trans ?_
      simp [Tables.insert]

theorem insertAll_rolePermissions (new : List RolePermission) (t : Tables) :
    insertAll .rolePermissions new t =
      { t with rolePermissions := t.rolePermissions ++ new } := by
  induction new generalizing t with
  | nil => simp [insertAll]
  | cons row new ih =>
      refine (ih (t.insert .rolePermissions row)).trans ?_
      simp [Tables.insert]

/-- Rows with keys of their own, whose references exist. -/
theorem schema_insertAll {new : List τ.Row} (h : t.Schema)
    (hdistinct : Distinct τ.keys (t.rows τ ++ new))
    (hreferences : ∀ x ∈ new, ∀ k ∈ τ.references x, t.hasKey k) :
    (insertAll τ new t).Schema := by
  induction new generalizing t with
  | nil => exact h
  | cons row new ih =>
      have hassoc : t.rows τ ++ row :: new = (t.rows τ ++ [row]) ++ new := by simp
      have hok : (Write.insert τ row).Ok t := by
        refine ⟨fun k hk hkey => ?_, hreferences row List.mem_cons_self⟩
        obtain ⟨σ, r, hr, hkr⟩ := Tables.hasKey_iff.mp hkey
        obtain rfl : σ = τ := (Table.mem_keys_table hkr).symm.trans (Table.mem_keys_table hk)
        rw [hassoc] at hdistinct
        have hsnoc := distinct_snoc.mp (hdistinct.sublist (List.sublist_append_left _ _))
        exact hsnoc.2 r hr k hkr hk
      refine ih (Write.schema_apply h hok) ?_ fun x hx k hk => ?_
      · change Distinct τ.keys ((t.insert τ row).rows τ ++ new)
        rw [Tables.rows_insert_self, ← hassoc]
        exact hdistinct
      · exact Write.hasKey_apply (.insert τ row) (Table.not_link_references hk)
          (hreferences x (List.mem_cons_of_mem _ hx) k hk)

theorem primary_row {id : Uuid} (h : t.hasKey (.primary τ id)) :
    ∃ r ∈ t.rows τ, .primary τ id ∈ τ.keys r := by
  obtain ⟨r, hr, hk⟩ := List.any_eq_true.mp h
  exact ⟨r, hr, of_decide_eq_true hk⟩

theorem role_of_hasKey {id : Uuid} (h : t.hasKey (.primary .roles id)) :
    ∃ role ∈ t.roles, role.id = id := by
  obtain ⟨role, hrole, hk⟩ := primary_row h
  exact ⟨role, hrole, by simpa [Table.keys, eq_comm] using hk⟩

theorem permission_of_hasKey {id : Uuid} (h : t.hasKey (.primary .permissions id)) :
    ∃ p ∈ t.permissions, p.id = id := by
  obtain ⟨p, hp, hk⟩ := primary_row h
  exact ⟨p, hp, by simpa [Table.keys, eq_comm] using hk⟩

theorem hasKey_of_role {role : Role} (h : role ∈ t.roles) :
    t.hasKey (.primary .roles role.id) :=
  Tables.hasKey_iff.mpr ⟨.roles, role, h, List.mem_cons_self⟩

theorem hasKey_of_permission {p : Permission} (h : p ∈ t.permissions) :
    t.hasKey (.primary .permissions p.id) :=
  Tables.hasKey_iff.mpr ⟨.permissions, p, h, List.mem_cons_self⟩

theorem mapping_references {rp : RolePermission} (h : t.Schema) (hrp : rp ∈ t.rolePermissions) :
    (∃ role ∈ t.roles, role.id = rp.roleId) ∧ ∃ p ∈ t.permissions, p.id = rp.permissionId := by
  have href := h.references .rolePermissions rp hrp
  exact ⟨role_of_hasKey (href _ List.mem_cons_self),
    permission_of_hasKey (href _ (List.mem_cons_of_mem _ List.mem_cons_self))⟩

theorem assignment_references {ur : UserRole} (h : t.Schema) (hur : ur ∈ t.userRoles) :
    ∃ role ∈ t.roles, role.id = ur.roleId :=
  role_of_hasKey <|
    h.references .userRoles ur hur _ (List.mem_cons_of_mem _ List.mem_cons_self)

/-- Mappings of rows of both tables. -/
theorem schema_mappings {new : List RolePermission} (h : t.Schema)
    (hdistinct : Distinct Table.rolePermissions.keys (t.rolePermissions ++ new))
    (hnew : ∀ rp ∈ new, (∃ role ∈ t.roles, role.id = rp.roleId) ∧
      ∃ p ∈ t.permissions, p.id = rp.permissionId) :
    ({ t with rolePermissions := t.rolePermissions ++ new } : Tables).Schema := by
  rw [← insertAll_rolePermissions]
  refine schema_insertAll h hdistinct fun rp hrp k hk => ?_
  obtain ⟨⟨role, hrole, hroleId⟩, p, hp, hpId⟩ := hnew rp hrp
  simp only [Table.references, List.mem_cons, List.not_mem_nil, or_false] at hk
  cases hk with
  | inl hk => exact hk ▸ hroleId ▸ hasKey_of_role hrole
  | inr hk => exact hk ▸ hpId ▸ hasKey_of_permission hp

end Schema

section Permissions
variable {t t' : Tables} {id : Uuid} {resource action description : String}

theorem permission_new {p : Permission}
    (h : Distinct Table.permissions.keys (t.permissions ++ [p])) :
    ∀ q ∈ t.permissions, ¬ (q.resource = p.resource ∧ q.action = p.action) := by
  intro q hq hpair
  refine (distinct_snoc.mp h).2 q hq (.permission p.resource p.action) ?_ ?_
  · simp [Table.keys, hpair]
  · simp [Table.keys]

theorem adminMappings_new {p : Permission}
    (h : ∀ q ∈ t.permissions, ¬ (q.resource = p.resource ∧ q.action = p.action)) :
    adminMappings p.resource p.action t.roles (t.permissions ++ [p]) =
      (t.roles.filter (·.name = "Admin")).map fun role => ⟨role.id, p.id⟩ := by
  have hnew : (t.permissions ++ [p]).filter
      (fun q => q.resource = p.resource ∧ q.action = p.action) = [p] :=
    filter_append_new (fun q hq => by simpa using h q hq) (by simp)
  rw [adminMappings, hnew]
  exact List.map_eq_flatMap.symm

/-- The permission is new, and only `Admin` has it. -/
theorem seedPermission_ok (h : t.Schema)
    (hup : seedPermission id resource action description t = .ok t') :
    (∀ q ∈ t.permissions, ¬ (q.resource = resource ∧ q.action = action)) ∧
    t' = { t with
      permissions := t.permissions ++ [⟨id, resource, action, some description⟩]
      rolePermissions := t.rolePermissions ++
        (t.roles.filter (·.name = "Admin")).map fun role => ⟨role.id, id⟩ } ∧
    t'.Schema := by
  obtain ⟨permissions, hp, hup⟩ := ok_of_bind hup
  obtain ⟨rfl, hpdistinct⟩ := (insertRows_eq_ok (h.unique .permissions)).mp hp
  obtain ⟨rolePermissions, hrp, hup⟩ := ok_of_bind hup
  have hnew := permission_new hpdistinct
  have hmappings := adminMappings_new (t := t) hnew
  change insertRows Table.rolePermissions.keys t.rolePermissions
    (adminMappings resource action t.roles (t.permissions ++ [_])) = _ at hrp
  rw [hmappings] at hrp
  obtain ⟨rfl, hdistinct⟩ := (insertRows_eq_ok (h.unique .rolePermissions)).mp hrp
  have hschema : (insertAll .permissions [⟨id, resource, action, some description⟩]
      t).Schema := schema_insertAll h hpdistinct fun _ _ k hk => absurd hk List.not_mem_nil
  rw [insertAll_permissions] at hschema
  cases hup
  refine ⟨hnew, rfl, schema_mappings hschema hdistinct fun rp hrp => ?_⟩
  obtain ⟨role, hrole, rfl⟩ := List.mem_map.mp hrp
  exact ⟨⟨role, List.mem_of_mem_filter hrole, rfl⟩, _,
    List.mem_append_right _ (List.mem_singleton_self _), rfl⟩

/-- Each `downgrade()` takes back what its `upgrade()` inserted. -/
theorem deletePermission_seed (h : t.Schema)
    (hup : seedPermission id resource action description t = .ok t') :
    deletePermission resource action t' = t := by
  obtain ⟨hnew, rfl, hschema⟩ := seedPermission_ok h hup
  let p : Permission := ⟨id, resource, action, some description⟩
  have hfree : ∀ q ∈ t.permissions, q.id ≠ id := by
    intro q hq heq
    refine (distinct_snoc.mp (hschema.unique .permissions)).2 q hq (.primary .permissions id) ?_ ?_
    · simp [Table.keys, heq]
    · simp [Table.keys]
  have hseeded : (t.permissions ++ [p]).filter
      (fun q => q.resource = resource ∧ q.action = action) = [p] :=
    filter_append_new (fun q hq => by simpa using hnew q hq) (by simp [p])
  have hpermissions : (t.permissions ++ [p]).filter
      (fun q => ¬ (q.resource = resource ∧ q.action = action)) = t.permissions :=
    filter_append_old (fun q hq => decide_eq_true (hnew q hq)) (by simp [p])
  have hmappings : (t.rolePermissions ++ (t.roles.filter (·.name = "Admin")).map
      fun role => (⟨role.id, id⟩ : RolePermission)).filter
        (fun rp => rp.permissionId ∉ [p].map (·.id)) = t.rolePermissions := by
    refine filter_append_old (fun rp hrp => ?_) fun rp hrp => ?_
    · obtain ⟨-, q, hq, hid⟩ := mapping_references h hrp
      simpa [p, ← hid] using hfree q hq
    · obtain ⟨role, -, rfl⟩ := List.mem_map.mp hrp
      simp [p]
  simp only [deletePermission, p, hseeded, hpermissions, hmappings]

end Permissions

section Defaults
variable {draw : Nat → Uuid} {d d' : PhaseTwo.Tables} {rp : RolePermission}

theorem newRoles_names (draw : Nat → Uuid) :
    (newRoles draw).map (·.name) = roleNames := rfl

theorem newPermissions_pairs (draw : Nat → Uuid) :
    (newPermissions draw).map (fun p => (p.resource, p.action)) = permissionPairs := rfl

theorem rolePermissionMap_defaults : ∀ entry ∈ rolePermissionMap,
    entry.1 ∈ roleNames ∧ entry.2 ∈ permissionPairs := by
  decide

theorem mem_newMappings {roles : List PhaseTwo.Role} {permissions : List Permission} :
    rp ∈ newMappings roles permissions ↔ ∃ role ∈ roles, ∃ p ∈ permissions,
      rp = ⟨role.id, p.id⟩ ∧ (role.name, p.resource, p.action) ∈ rolePermissionMap := by
  simp only [newMappings, List.mem_flatMap, List.mem_map, List.mem_filter, decide_eq_true_eq]
  constructor
  · intro h
    obtain ⟨role, hrole, p, ⟨hp, hmap⟩, heq⟩ := h
    exact ⟨role, hrole, p, hp, heq.symm, hmap⟩
  · intro h
    obtain ⟨role, hrole, p, hp, heq, hmap⟩ := h
    exact ⟨role, hrole, p, ⟨hp, hmap⟩, heq.symm⟩

/-- The revision leaves the constraints in place. -/
theorem upgradeDefaults_ok (h : d.Schema) (hup : upgradeDefaults draw d = .ok d') :
    d' = { d with
      roles := d.roles ++ newRoles draw
      permissions := d.permissions ++ newPermissions draw
      rolePermissions := d.rolePermissions ++
        newMappings (d.roles ++ newRoles draw) (d.permissions ++ newPermissions draw) } ∧
    d'.Schema := by
  obtain ⟨roles, hr, hup⟩ := ok_of_bind hup
  obtain ⟨rfl, hroles⟩ :=
    (insertRows_eq_ok (List.pairwise_map.mp (h.unique .roles))).mp hr
  obtain ⟨permissions, hp, hup⟩ := ok_of_bind hup
  obtain ⟨rfl, hpermissions⟩ := (insertRows_eq_ok (h.unique .permissions)).mp hp
  obtain ⟨rolePermissions, hrp, hup⟩ := ok_of_bind hup
  obtain ⟨rfl, hmappings⟩ := (insertRows_eq_ok (h.unique .rolePermissions)).mp hrp
  cases hup
  refine ⟨rfl, ?_⟩
  let addOrganization (role : PhaseTwo.Role) : Role :=
    ⟨role.id, role.name, role.description, role.isSystemRole, none⟩
  have hrolesSchema : (insertAll .roles ((newRoles draw).map addOrganization)
      (upgrade d)).Schema := by
    refine schema_insertAll h ?_ fun role hrole k hk => ?_
    · change Distinct _ (d.roles.map addOrganization ++ _)
      rw [← List.map_append]
      exact List.pairwise_map.mpr hroles
    · obtain ⟨role, -, rfl⟩ := List.mem_map.mp hrole
      cases hk
  rw [insertAll_roles] at hrolesSchema
  have hpermissionsSchema := schema_insertAll (τ := .permissions) hrolesSchema hpermissions
    fun _ _ k hk => absurd hk List.not_mem_nil
  rw [insertAll_permissions] at hpermissionsSchema
  have hschema := schema_mappings hpermissionsSchema hmappings fun rp hrp => by
    obtain ⟨role, hrole, p, hp, rfl, -⟩ := mem_newMappings.mp hrp
    have hmem := List.mem_map_of_mem (f := addOrganization) hrole
    rw [List.map_append] at hmem
    exact ⟨⟨_, hmem, rfl⟩, p, hp, rfl⟩
  change ({ upgrade d with
    roles := (d.roles ++ newRoles draw).map addOrganization
    permissions := d.permissions ++ newPermissions draw
    rolePermissions := d.rolePermissions ++ newMappings (d.roles ++ newRoles draw)
      (d.permissions ++ newPermissions draw) } : Tables).Schema
  rw [List.map_append]
  exact hschema

/-- Nothing that was there before has the name of a default. -/
theorem defaults_new (h : Distinct roleKeys (d.roles ++ newRoles draw))
    (hp : Distinct Table.permissions.keys (d.permissions ++ newPermissions draw)) :
    (∀ role ∈ d.roles, role.name ∉ roleNames) ∧
      ∀ p ∈ d.permissions, (p.resource, p.action) ∉ permissionPairs := by
  constructor
  · intro role hrole hname
    rw [← newRoles_names draw] at hname
    obtain ⟨new, hnew, heq⟩ := List.mem_map.mp hname
    refine (List.pairwise_append.mp h).2.2 role hrole new hnew (.roleName role.name) ?_ ?_
    · simp [roleKeys]
    · simp [roleKeys, heq]
  · intro p hmem hpair
    rw [← newPermissions_pairs draw] at hpair
    obtain ⟨new, hnew, heq⟩ := List.mem_map.mp hpair
    obtain ⟨hresource, haction⟩ := Prod.mk.inj heq
    refine (List.pairwise_append.mp hp).2.2 p hmem new hnew (.permission p.resource p.action) ?_ ?_
    · simp [Table.keys]
    · simp [Table.keys, hresource, haction]

theorem newRoles_name {role : PhaseTwo.Role} (h : role ∈ newRoles draw) :
    role.name ∈ roleNames := by
  rw [← newRoles_names draw]
  exact List.mem_map_of_mem h

theorem newPermissions_pair {p : Permission} (h : p ∈ newPermissions draw) :
    (p.resource, p.action) ∈ permissionPairs := by
  rw [← newPermissions_pairs draw]
  exact List.mem_map_of_mem (f := fun p : Permission => (p.resource, p.action)) h

/-- No old row has an id of a new one. -/
theorem distinct_id {τ : Table} {old new : List α} {keys : α → List LockKey} {id : α → Uuid}
    (hkeys : ∀ a, .primary τ (id a) ∈ keys a) (h : Distinct keys (old ++ new)) {a : α}
    (ha : a ∈ old) : id a ∉ new.map id := by
  intro hid
  obtain ⟨b, hb, heq⟩ := List.mem_map.mp hid
  exact (List.pairwise_append.mp h).2.2 a ha b hb (.primary τ (id a)) (hkeys a) (heq ▸ hkeys b)

theorem downgradeDefaults_upgradeDefaults (h : d.Schema)
    (hup : upgradeDefaults draw d = .ok d') : downgradeDefaults d' = d := by
  obtain ⟨rfl, hschema⟩ := upgradeDefaults_ok h hup
  have hroles : Distinct roleKeys (d.roles ++ newRoles draw) :=
    List.pairwise_map.mp (hschema.unique .roles)
  have hpermissions := hschema.unique .permissions
  obtain ⟨hnames, hpairs⟩ := defaults_new hroles hpermissions
  have hroleFree : ∀ rp ∈ d.rolePermissions, rp.roleId ∉ (newRoles draw).map (·.id) := by
    intro rp hrp
    obtain ⟨⟨role, hrole, hid⟩, -⟩ := mapping_references h hrp
    obtain ⟨old, hold, rfl⟩ := List.mem_map.mp hrole
    exact hid ▸ distinct_id (fun _ => List.mem_cons_self) hroles hold
  have hassignmentFree : ∀ ur ∈ d.userRoles, ur.roleId ∉ (newRoles draw).map (·.id) := by
    intro ur hur
    obtain ⟨role, hrole, hid⟩ := assignment_references h (List.mem_map_of_mem hur)
    obtain ⟨old, hold, rfl⟩ := List.mem_map.mp hrole
    change old.id = ur.roleId at hid
    exact hid ▸ distinct_id (fun _ => List.mem_cons_self) hroles hold
  have hpermissionFree : ∀ rp ∈ d.rolePermissions,
      rp.permissionId ∉ (newPermissions draw).map (·.id) := by
    intro rp hrp
    obtain ⟨-, p, hp, hid⟩ := mapping_references h hrp
    exact hid ▸ distinct_id (fun _ => List.mem_cons_self) hpermissions hp
  have hmapped : ∀ rp ∈ newMappings (d.roles ++ newRoles draw)
      (d.permissions ++ newPermissions draw), rp.roleId ∈ (newRoles draw).map (·.id) ∧
        rp.permissionId ∈ (newPermissions draw).map (·.id) := by
    intro rp hrp
    obtain ⟨role, hrole, p, hp, rfl, hmap⟩ := mem_newMappings.mp hrp
    obtain ⟨hname, hpair⟩ := rolePermissionMap_defaults _ hmap
    constructor
    · cases List.mem_append.mp hrole with
      | inl hold => exact absurd hname (hnames role hold)
      | inr hnew => exact List.mem_map_of_mem hnew
    · cases List.mem_append.mp hp with
      | inl hold => exact absurd hpair (hpairs p hold)
      | inr hnew => exact List.mem_map_of_mem hnew
  have hseededRoles : (d.roles ++ newRoles draw).filter
      (·.name ∈ roleNames) = newRoles draw :=
    filter_append_new (fun role hrole => by simpa using hnames role hrole)
      fun role hrole => decide_eq_true (newRoles_name hrole)
  have hseededPermissions : (d.permissions ++ newPermissions draw).filter
      (fun p => (p.resource, p.action) ∈ permissionPairs) = newPermissions draw :=
    filter_append_new (fun p hp => by simpa using hpairs p hp)
      fun p hp => decide_eq_true (newPermissions_pair hp)
  have hkeptRoles : (d.roles ++ newRoles draw).filter
      (·.name ∉ roleNames) = d.roles :=
    filter_append_old (fun role hrole => decide_eq_true (hnames role hrole))
      fun role hrole hnot => of_decide_eq_true hnot (newRoles_name hrole)
  have hkeptPermissions : (d.permissions ++ newPermissions draw).filter
      (fun p => (p.resource, p.action) ∉ permissionPairs) = d.permissions :=
    filter_append_old (fun p hp => decide_eq_true (hpairs p hp))
      fun p hp hnot => of_decide_eq_true hnot (newPermissions_pair hp)
  have hkeptMappings : (d.rolePermissions ++ newMappings (d.roles ++ newRoles draw)
      (d.permissions ++ newPermissions draw)).filter (fun rp =>
        ¬ (rp.roleId ∈ (newRoles draw).map (·.id) ∧
          rp.permissionId ∈ (newPermissions draw).map (·.id))) = d.rolePermissions :=
    filter_append_old (fun rp hrp => decide_eq_true fun hboth => hroleFree rp hrp hboth.1)
      fun rp hrp hnot => of_decide_eq_true hnot (hmapped rp hrp)
  have hmappings : d.rolePermissions.filter (fun rp =>
      rp.roleId ∉ (newRoles draw).map (·.id) ∧
        rp.permissionId ∉ (newPermissions draw).map (·.id)) = d.rolePermissions :=
    List.filter_eq_self.mpr fun rp hrp =>
      decide_eq_true ⟨hroleFree rp hrp, hpermissionFree rp hrp⟩
  have hassignments : d.userRoles.filter
      (·.roleId ∉ (newRoles draw).map (·.id)) = d.userRoles :=
    List.filter_eq_self.mpr fun ur hur => decide_eq_true (hassignmentFree ur hur)
  simp only [downgradeDefaults, hseededRoles, hseededPermissions, hkeptRoles, hkeptPermissions,
    hkeptMappings, hmappings, hassignments]

end Defaults

section Head
variable {draw : Nat → Uuid} {d : PhaseTwo.Tables} {t : Tables}

/-- Without organizations every assignment is a global one, and no pair stands twice. -/
theorem downgrade_upgrade (h : d.Schema) : downgrade (upgrade d) = .ok d := by
  refine downgrade_eq_ok.mpr ⟨?_, ?_⟩
  · have hunique := List.pairwise_map.mp (h.unique .userRoles)
    refine List.pairwise_map.mpr (List.pairwise_map.mpr (hunique.imp fun {a b} hkeys heq => ?_))
    obtain ⟨huser, hrole⟩ := Prod.mk.inj heq
    refine hkeys (.assignment a.userId a.roleId none) ?_ ?_
    · simp [Table.keys]
    · change a.userId = b.userId at huser
      change a.roleId = b.roleId at hrole
      simp [Table.keys, huser, hrole]
  · simp [upgrade, dropRoleOrganization, dropUserRoleOrganization, Function.comp_def]

/-- What each revision up to the head passes on to the next. -/
theorem upgradeHead_ok (hup : upgradeHead draw d = .ok t) : ∃ d' t',
    upgradeDefaults draw d = .ok d' ∧
      upgradeOrganizationManage (draw 9) (upgrade d') = .ok t' ∧
        upgradeAuditView (draw 10) t' = .ok t := by
  obtain ⟨d', hdefaults, hup⟩ := ok_of_bind hup
  obtain ⟨t', hmanage, hview⟩ := ok_of_bind hup
  exact ⟨d', t', hdefaults, hmanage, hview⟩

/-- Role and permission of each mapping that the revisions insert. -/
def seededMap : List (String × String × String) :=
  rolePermissionMap ++ [("Admin", "organization", "manage"), ("Admin", "audit", "view")]

/-- The roles and the defaults among them. -/
def seededRoles (draw : Nat → Uuid) (d : PhaseTwo.Tables) : List Role :=
  (upgrade { d with roles := d.roles ++ newRoles draw }).roles

def seededPermissions (draw : Nat → Uuid) (d : PhaseTwo.Tables) : List Permission :=
  d.permissions ++ newPermissions draw ++
    [⟨draw 9, "organization", "manage", some "Create organizations and manage their membership"⟩,
      ⟨draw 10, "audit", "view", some "View the audit log"⟩]

def seededMappings (draw : Nat → Uuid) (d : PhaseTwo.Tables) : List RolePermission :=
  let admins := (seededRoles draw d).filter (·.name = "Admin")
  d.rolePermissions ++
    newMappings (d.roles ++ newRoles draw) (d.permissions ++ newPermissions draw) ++
    admins.map (fun role => ⟨role.id, draw 9⟩) ++ admins.map fun role => ⟨role.id, draw 10⟩

theorem upgradeHead_eq (h : d.Schema) (hup : upgradeHead draw d = .ok t) :
    t.Schema ∧ t = { upgrade d with
      roles := seededRoles draw d
      permissions := seededPermissions draw d
      rolePermissions := seededMappings draw d } := by
  obtain ⟨d', t', hdefaults, hmanage, hview⟩ := upgradeHead_ok hup
  obtain ⟨rfl, hd'⟩ := upgradeDefaults_ok h hdefaults
  obtain ⟨-, rfl, hmanaged⟩ := seedPermission_ok hd' hmanage
  obtain ⟨-, rfl, hviewed⟩ := seedPermission_ok hmanaged hview
  refine ⟨hviewed, ?_⟩
  simp [upgrade, seededRoles, seededPermissions, seededMappings]

end Head

end Migrations

/-- Whatever is in the database, a downgrade from the head takes back just what the upgrade to
it inserted. -/
theorem downgrade_upgrade_head {draw : Nat → Uuid} {d : PhaseTwo.Tables} {t : Tables}
    (h : d.Schema) (hup : Migrations.upgradeHead draw d = .ok t) :
    Migrations.downgradeHead t = .ok d := by
  obtain ⟨d', t', hdefaults, hmanage, hview⟩ := Migrations.upgradeHead_ok hup
  have hd' := (Migrations.upgradeDefaults_ok h hdefaults).2
  have hmanaged := Migrations.seedPermission_ok hd' hmanage
  have hlogs : t'.auditLogs = [] := by rw [hmanaged.2.1]; rfl
  have hundone : Migrations.Revision.seedAuditView.undone t = Migrations.upgrade d' := by
    have hview' : Migrations.downgradeAuditView t = t' :=
      Migrations.deletePermission_seed hmanaged.2.2 hview
    have hlogs' : Migrations.downgradeAuditLogs t' = t' := by
      rw [Migrations.downgradeAuditLogs, ← hlogs]
    rw [Migrations.Revision.undone, hview', hlogs']
    exact Migrations.deletePermission_seed hd' hmanage
  rw [Migrations.downgradeHead, Migrations.downgradeFrom, hundone,
    Migrations.downgrade_upgrade hd']
  exact congrArg Except.ok (Migrations.downgradeDefaults_upgradeDefaults h hdefaults)

/-- A database with a user who has a role of their own. -/
def startedTables : PhaseTwo.Tables where
  users := [⟨⟨1⟩, "a", "p", true, 0, none⟩]
  refreshTokens := []
  roles := [⟨⟨5⟩, "Auditor", none, false⟩]
  permissions := [⟨⟨11⟩, "report", "view", none⟩]
  rolePermissions := [⟨⟨5⟩, ⟨11⟩⟩]
  userRoles := [⟨⟨13⟩, ⟨1⟩, ⟨5⟩⟩]

theorem startedTables_schema : startedTables.Schema := by
  constructor
  · intro τ
    cases τ <;> decide
  · intro τ
    cases τ <;> decide

theorem downgrade_upgrade_head_started :
    ∃ t, Migrations.upgradeHead (fun n => ⟨100 + n⟩) startedTables = .ok t ∧
      t.rolePermissions.length = 15 ∧ Migrations.downgradeHead t = .ok startedTables := by
  have hup : Migrations.upgradeHead (fun n => ⟨100 + n⟩) startedTables =
      .ok { Migrations.upgrade startedTables with
        roles := Migrations.seededRoles (fun n => ⟨100 + n⟩) startedTables
        permissions := Migrations.seededPermissions (fun n => ⟨100 + n⟩) startedTables
        rolePermissions := Migrations.seededMappings (fun n => ⟨100 + n⟩) startedTables } := by
    decide +kernel
  exact ⟨_, hup, by decide +kernel, downgrade_upgrade_head startedTables_schema hup⟩

end SecureIam
