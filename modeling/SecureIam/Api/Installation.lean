import SecureIam.Api.Admission
import SecureIam.Api.Delegation
import SecureIam.Db.Seeds

/-!
A new installation: the migrations seed roles and permissions, but no assignment, and the first
one is made by hand, outside the API. Until then the API gives nobody anything.
-/
namespace SecureIam.Api
open Lib Migrations
variable {env : Environment} {draw : Nat → Uuid} {t : Tables} {role : Role} {x : Permission}

/-- A database in which nothing was ever inserted. -/
def emptyTables : PhaseTwo.Tables := ⟨[], [], [], [], [], []⟩

theorem emptyTables_schema : emptyTables.Schema := by
  constructor
  · intro τ
    cases τ <;> exact .nil
  · intro τ r hr
    cases τ <;> exact absurd hr List.not_mem_nil

theorem role_unique (h : t.Schema) {role' : Role} (hrole : role ∈ t.roles)
    (hrole' : role' ∈ t.roles) (hid : role.id = role'.id) : role = role' :=
  h.row_unique (τ := .roles) hrole hrole' List.mem_cons_self (by simp [Table.keys, hid])

theorem permission_unique (h : t.Schema) {x' : Permission} (hx : x ∈ t.permissions)
    (hx' : x' ∈ t.permissions) (hid : x.id = x'.id) : x = x' :=
  h.row_unique (τ := .permissions) hx hx' List.mem_cons_self (by simp [Table.keys, hid])

theorem newRoles_id (draw : Nat → Uuid) {role : PhaseTwo.Role} (h : role ∈ newRoles draw) :
    ∃ n, role.id = draw n := by
  obtain ⟨n, hn, rfl⟩ := List.mem_iff_getElem.mp h
  exact ⟨n, by simp [newRoles]⟩

theorem newPermissions_id (draw : Nat → Uuid) (h : x ∈ newPermissions draw) :
    ∃ n, x.id = draw n := by
  obtain ⟨n, hn, rfl⟩ := List.mem_iff_getElem.mp h
  exact ⟨defaultRoles.length + n, by simp [newPermissions]⟩

section Installed
variable {p : Server env}

theorem installed_role : role ∈ seededRoles draw emptyTables ↔ ∃ new ∈ newRoles draw,
    role = ⟨new.id, new.name, new.description, new.isSystemRole, none⟩ := by
  simp [seededRoles, upgrade, emptyTables, eq_comm]

theorem installed_permission : x ∈ seededPermissions draw emptyTables ↔
    x ∈ newPermissions draw ∨
      x = ⟨draw 9, "organization", "manage",
        some "Create organizations and manage their membership"⟩ ∨
      x = ⟨draw 10, "audit", "view", some "View the audit log"⟩ := by
  simp [seededPermissions, emptyTables]

theorem installed_ready (hup : upgradeHead draw emptyTables = .ok t)
    (hdraw : ∀ m n, draw m ≠ env.uuid n) : t.Ready env := by
  obtain ⟨hschema, rfl⟩ := upgradeHead_eq emptyTables_schema hup
  refine ⟨hschema, fun m τ hkey => ?_⟩
  obtain ⟨r, hr, hk⟩ := primary_row hkey
  cases τ with
  | roles =>
      obtain ⟨new, hnew, rfl⟩ := installed_role.mp hr
      obtain ⟨n, hn⟩ := newRoles_id draw hnew
      have hid : env.uuid m = new.id := by simpa [Table.keys] using hk
      exact hdraw n m (hn.symm.trans hid.symm)
  | permissions =>
      have hid : env.uuid m = r.id := by simpa [Table.keys] using hk
      obtain hnew | rfl | rfl := installed_permission.mp hr
      · obtain ⟨n, hn⟩ := newPermissions_id draw hnew
        exact hdraw n m (hn.symm.trans hid.symm)
      · exact hdraw 9 m hid.symm
      · exact hdraw 10 m hid.symm
  | rolePermissions => simp [Table.keys] at hk
  | _ => exact absurd hr List.not_mem_nil

/-- A role has just the permissions that the catalogue of its name lists. -/
theorem installed_mapping (hup : upgradeHead draw emptyTables = .ok t) (hrole : role ∈ t.roles)
    (hx : x ∈ t.permissions) : ⟨role.id, x.id⟩ ∈ t.rolePermissions ↔
      (role.name, x.resource, x.action) ∈ seededMap := by
  obtain ⟨hschema, rfl⟩ := upgradeHead_eq emptyTables_schema hup
  have hlater : ∀ n resource action description, (⟨draw n, resource, action, description⟩ :
      Permission) ∈ seededPermissions draw emptyTables → ("Admin", resource, action) ∈ seededMap →
      (⟨role.id, x.id⟩ : RolePermission) ∈ ((seededRoles draw emptyTables).filter
        (·.name = "Admin")).map (fun role => ⟨role.id, draw n⟩) →
      (role.name, x.resource, x.action) ∈ seededMap := by
    intro n resource action description hnew hlisted hmem
    obtain ⟨admin, hadmin, heq⟩ := List.mem_map.mp hmem
    obtain ⟨hadmin, hname⟩ := List.mem_filter.mp hadmin
    obtain ⟨hroleId, hid⟩ := RolePermission.mk.inj heq
    obtain rfl := role_unique hschema hrole hadmin hroleId.symm
    obtain rfl := permission_unique hschema hx hnew hid.symm
    rw [of_decide_eq_true hname]
    exact hlisted
  constructor
  · intro hmem
    change _ ∈ seededMappings draw emptyTables at hmem
    simp only [seededMappings, List.mem_append] at hmem
    obtain ((hold | hnew) | horganization) | haudit := hmem
    · cases hold
    · obtain ⟨new, hnew, x', hx', heq, hmap⟩ := mem_newMappings.mp hnew
      obtain ⟨hroleId, hid⟩ := RolePermission.mk.inj heq
      obtain rfl := role_unique hschema hrole (installed_role.mpr ⟨new, hnew, rfl⟩) hroleId
      obtain rfl := permission_unique hschema hx (installed_permission.mpr (.inl hx')) hid
      exact List.mem_append_left _ hmap
    · exact hlater 9 _ _ _ (installed_permission.mpr (.inr (.inl rfl))) (by decide) horganization
    · exact hlater 10 _ _ _ (installed_permission.mpr (.inr (.inr rfl))) (by decide) haudit
  · intro hlisted
    obtain ⟨new, hnew, rfl⟩ := installed_role.mp hrole
    change _ ∈ seededMappings draw emptyTables
    simp only [seededMappings, List.mem_append]
    have hadmin : new.name = "Admin" → (⟨new.id, new.name, new.description, new.isSystemRole,
        none⟩ : Role) ∈ (seededRoles draw emptyTables).filter (·.name = "Admin") := by
      intro hname
      exact List.mem_filter.mpr ⟨hrole, decide_eq_true hname⟩
    obtain hx | rfl | rfl := installed_permission.mp hx
    · refine .inl (.inl (.inr (mem_newMappings.mpr ⟨new, hnew, x, hx, rfl, ?_⟩)))
      have hother : ∀ entry ∈ [("Admin", "organization", "manage"), ("Admin", "audit", "view")],
          entry.2 ∉ permissionPairs := by decide
      exact (List.mem_append.mp hlisted).resolve_right fun hlast =>
        hother _ hlast (newPermissions_pair hx)
    · refine .inl (.inr (List.mem_map.mpr ⟨_, hadmin ?_, rfl⟩))
      simpa [seededMap, rolePermissionMap] using hlisted
    · refine .inr (List.mem_map.mpr ⟨_, hadmin ?_, rfl⟩)
      simpa [seededMap, rolePermissionMap] using hlisted

/-- A user to whom a role is given by hand. -/
def appointed (t : Tables) (id userId roleId : Uuid) : Tables :=
  { t with userRoles := t.userRoles ++ [⟨id, userId, roleId, none⟩] }

theorem seededMap_guard {route : Route} {resource action : String}
    (h : route.guard = .permission resource action) :
    ("Admin", resource, action) ∈ seededMap := by
  cases route <;> cases h <;> decide

theorem seededMap_pair : ∀ entry ∈ seededMap,
    entry.2 ∈ permissionPairs ++ [("organization", "manage"), ("audit", "view")] := by
  decide

theorem seededMap_permission (draw : Nat → Uuid) {entry : String × String × String}
    (h : entry ∈ seededMap) :
    ∃ x ∈ seededPermissions draw emptyTables, (x.resource, x.action) = entry.2 := by
  cases List.mem_append.mp (seededMap_pair entry h) with
  | inl hpair =>
      rw [← newPermissions_pairs draw] at hpair
      obtain ⟨x, hx, hname⟩ := List.mem_map.mp hpair
      exact ⟨x, installed_permission.mpr (.inl hx), hname⟩
  | inr hpair =>
      simp only [List.mem_cons, List.not_mem_nil, or_false] at hpair
      cases hpair with
      | inl hname => exact ⟨_, installed_permission.mpr (.inr (.inl rfl)), hname.symm⟩
      | inr hname => exact ⟨_, installed_permission.mpr (.inr (.inr rfl)), hname.symm⟩

/-- The step by hand is enough: it opens every route to an active user. -/
theorem appointed_allows (hup : upgradeHead draw emptyTables = .ok t) {admin : Role}
    (hadmin : admin ∈ t.roles) (hname : admin.name = "Admin") {t' : Tables}
    (hpermissions : t'.permissions = t.permissions)
    (hmappings : t'.rolePermissions = t.rolePermissions) {id u : Uuid} (hactive : t'.Active u)
    {route : Route} {resource action : String}
    (hguard : route.guard = .permission resource action) :
    (appointed t' id u admin.id).Allows u resource action none := by
  have hlisted := seededMap_guard hguard
  obtain ⟨x, hx, hpair⟩ := seededMap_permission draw hlisted
  obtain ⟨rfl, rfl⟩ := Prod.mk.inj hpair
  have hx : x ∈ t.permissions := by
    obtain ⟨-, rfl⟩ := upgradeHead_eq emptyTables_schema hup
    exact hx
  have hmapping := (installed_mapping hup hadmin hx).mpr (hname ▸ hlisted)
  refine ⟨hactive, x, hpermissions ▸ hx, ⟨rfl, rfl⟩, ?_⟩
  refine ⟨⟨id, u, admin.id, none⟩, List.mem_append_right _ (List.mem_singleton_self _), ?_⟩
  exact ⟨⟨rfl, .inl rfl⟩, _, hmappings ▸ hmapping, rfl, rfl⟩

theorem appointed_schema (ht : t.Schema) (hnone : t.userRoles = []) (hrole : role ∈ t.roles)
    {id u : Uuid} (hactive : t.Active u) : (appointed t id u role.id).Schema := by
  refine Write.schema_apply (w := .insert .userRoles ⟨id, u, role.id, none⟩) ht
    ⟨fun k hk hkey => ?_, fun k hk => ?_⟩
  · obtain ⟨τ, r, hr, hrk⟩ := Tables.hasKey_iff.mp hkey
    obtain rfl : τ = .userRoles := (Table.mem_keys_table hrk).symm.trans (Table.mem_keys_table hk)
    rw [show t.rows .userRoles = [] from hnone] at hr
    cases hr
  · obtain ⟨x, hx, hid, -⟩ := hactive
    have hreferences : k = .primary .users u ∨ k = .primary .roles role.id := by
      simpa [Write.requires, Table.references] using hk
    obtain rfl | rfl := hreferences
    · exact Tables.hasKey_iff.mpr ⟨.users, x, hx, by simp [Table.keys, hid]⟩
    · exact Tables.hasKey_iff.mpr ⟨.roles, role, hrole, by simp [Table.keys]⟩

/-- The role is given while the server runs. -/
def Server.appoint (p : Server env) (id userId roleId : Uuid) : Server env :=
  { p with world := { p.world with
      shared := { p.world.shared with state := appointed p.tables id userId roleId } } }

/-- Whatever requests a new installation serves, in whatever order: the roles have the
permissions of the catalogue, nobody is given a role, no change of access is recorded, and no
route behind a permission answers. One assignment of `Admin` by hand opens all of them: nobody
who has it is refused when they call one with a token of theirs. -/
theorem installation_sealed (hup : upgradeHead draw emptyTables = .ok t)
    (hdraw : ∀ m n, draw m ≠ env.uuid n) (hr : Reaches (respond env) (Server.started t) p) :
    p.tables.roles.map (·.name) = ["Admin", "Manager", "Developer", "Intern"] ∧
    (∀ role ∈ p.tables.roles, ∀ x ∈ p.tables.permissions,
      ⟨role.id, x.id⟩ ∈ p.tables.rolePermissions ↔
        (role.name, x.resource, x.action) ∈ seededMap) ∧
    p.tables.userRoles = [] ∧
    (∀ x ∈ p.tables.auditLogs, ∀ a : Administration, x.action ≠ a.action) ∧
    (∀ (i : Nat) (th : Thread (machine env) HttpRequest Error HttpResponse),
      p.threads[i]? = some th → ∀ resource action,
        th.request.route.guard = .permission resource action →
          ∀ response, th.outcome ≠ some (.ok response)) ∧
    ∀ admin ∈ p.tables.roles, admin.name = "Admin" → ∀ id u, p.tables.Active u →
      ∀ (route : Route) (resource action : String), route.guard = .permission resource action →
        (appointed p.tables id u admin.id).Allows u resource action none ∧
        ∀ req : HttpRequest, req.route = route →
          req.caller env (env.clock p.world.trace.length) = some u →
          ∀ out q, Served (respond env) (p.appoint id u admin.id) req out q →
            ∀ e, out = .error e → ¬ Refusal e := by
  have ht := installed_ready hup hdraw
  obtain ⟨-, heq⟩ := upgradeHead_eq emptyTables_schema hup
  have hnone : t.userRoles = [] := by rw [heq]; rfl
  have hlogs : t.auditLogs = [] := by rw [heq]; rfl
  obtain ⟨hrows, hevents, -⟩ := sealed ht hnone hr
  have hroles : p.tables.roles = t.roles := hrows .roles (by decide)
  have hpermissions : p.tables.permissions = t.permissions := hrows .permissions (by decide)
  have hmappings : p.tables.rolePermissions = t.rolePermissions :=
    hrows .rolePermissions (by decide)
  refine ⟨?_, ?_, (hrows .userRoles (by decide)).trans hnone, ?_, ?_, ?_⟩
  · rw [hroles, heq]
    rfl
  · rw [hroles, hpermissions, hmappings]
    intro role hrole x hx
    exact installed_mapping hup hrole hx
  · intro x hx a ha
    have hold := hevents x hx a ha
    rw [hlogs] at hold
    cases hold
  · intro i th hth resource action hguard response
    exact sealed_refuses ht hnone hr hth hguard response
  · intro admin hadmin hname id u hactive route resource action hguard
    have hallows : (appointed p.tables id u admin.id).Allows u resource action none :=
      appointed_allows hup (hroles ▸ hadmin) hname hpermissions hmappings hactive hguard
    refine ⟨hallows, fun req hroute hcaller out q hserved e hout => ?_⟩
    subst hroute
    have hkept := Server.ledger_kept ht hr
    have hschema : (appointed p.tables id u admin.id).Schema :=
      appointed_schema hkept.inv.1.schema ((hrows .userRoles (by decide)).trans hnone) hadmin
        hactive
    exact served_admitted (p := p.appoint id u admin.id) hschema hkept.owner hguard hcaller hallows
      hserved hout

end Installed

/-- Odd ids, where the server draws even ones. -/
def oddDraw (n : Nat) : Uuid := ⟨2 * n + 1⟩

def installedTables : Tables :=
  { upgrade emptyTables with
    roles := seededRoles oddDraw emptyTables
    permissions := seededPermissions oddDraw emptyTables
    rolePermissions := seededMappings oddDraw emptyTables }

/-- Somebody registers and asks for the role `Admin`. -/
def petitioned : Server subjectEnvironment :=
  Pool.played (respond subjectEnvironment) (Server.started installedTables)
    [.spawn ⟨none, .register "a" "p"⟩, .finish 0,
      .spawn ⟨some "Bearer 2", .assignRoleToUser ⟨2⟩ ⟨1⟩ none⟩, .finish 1]

/-- They are refused, are given the role by hand, and may then assign one. -/
theorem installation_sealed_petitioned :
    petitioned.threads[1]?.map (·.outcome) = some (some (.error permissionDenied)) ∧
    petitioned.tables.userRoles = [] ∧
    (∀ x ∈ petitioned.tables.auditLogs, ∀ a : Administration, x.action ≠ a.action) ∧
    (∃ q, Served (respond subjectEnvironment) (petitioned.appoint ⟨31⟩ ⟨2⟩ ⟨1⟩)
      ⟨some "Bearer 2", .assignRoleToUser ⟨2⟩ ⟨3⟩ none⟩ (.ok noContent) q) ∧
    ∀ out q, Served (respond subjectEnvironment) (petitioned.appoint ⟨31⟩ ⟨2⟩ ⟨1⟩)
      ⟨some "Bearer 2", .assignRoleToUser ⟨2⟩ ⟨3⟩ none⟩ out q →
      ∀ e, out = .error e → ¬ Refusal e := by
  have hdraw : ∀ m n, oddDraw m ≠ subjectEnvironment.uuid n := by
    intro m n heq
    have hval : 2 * m + 1 = 2 * n := congrArg Uuid.val heq
    omega
  have hup : upgradeHead oddDraw emptyTables = .ok installedTables := by decide +kernel
  have h := installation_sealed hup hdraw
    (Pool.played_reaches (respond subjectEnvironment) (Server.started installedTables)
      [.spawn ⟨none, .register "a" "p"⟩, .finish 0,
        .spawn ⟨some "Bearer 2", .assignRoleToUser ⟨2⟩ ⟨1⟩ none⟩, .finish 1])
  have hadmin : ∃ admin ∈ petitioned.tables.roles, admin.name = "Admin" ∧ admin.id = ⟨1⟩ := by
    decide +kernel
  obtain ⟨admin, hadmin, hname, hid⟩ := hadmin
  have hopened := h.2.2.2.2.2 admin hadmin hname ⟨31⟩ ⟨2⟩ (by decide +kernel)
    (.assignRoleToUser ⟨2⟩ ⟨3⟩ none) "user" "manage" rfl
  rw [hid] at hopened
  exact ⟨by decide +kernel, h.2.2.1, h.2.2.2.1, Served.of_run (by decide +kernel),
    hopened.2 _ rfl (by decide +kernel)⟩

end SecureIam.Api
