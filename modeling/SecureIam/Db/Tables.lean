import SecureIam.Domain.Models
import SecureIam.Lib.Transaction

/-!
The database: nine tables with their keys and foreign keys, the row changes that
the application's statements make, and the locks each of them takes. Rows stand
in insertion order. A unique index is locked like a row: an INSERT of a key that
another transaction is inserting or deleting waits for that transaction.
-/
namespace SecureIam
open Lib

inductive Table where
  | users
  | refreshTokens
  | roles
  | permissions
  | rolePermissions
  | userRoles
  | organizations
  | memberships
  | auditLogs
deriving DecidableEq, Repr

@[reducible] def Table.Row : Table → Type
  | users => User
  | refreshTokens => RefreshToken
  | roles => Role
  | permissions => Permission
  | rolePermissions => RolePermission
  | userRoles => UserRole
  | organizations => Organization
  | memberships => OrganizationMembership
  | auditLogs => AuditLog

/-- Primary keys, and the values of the unique indexes. -/
inductive LockKey where
  | primary (τ : Table) (id : Uuid)
  | email (email : String)
  | roleName (name : String)
  | permission (resource action : String)
  | rolePermission (roleId permissionId : Uuid)
  | assignment (userId roleId : Uuid) (organizationId : Option Uuid)
  | organizationName (name : String)
  | membershipOf (userId organizationId : Uuid)
deriving DecidableEq, Repr

def LockKey.table : LockKey → Table
  | primary τ _ => τ
  | email _ => .users
  | roleName _ => .roles
  | permission _ _ => .permissions
  | rolePermission _ _ => .rolePermissions
  | assignment _ _ _ => .userRoles
  | organizationName _ => .organizations
  | membershipOf _ _ => .memberships

namespace Table

/-- The primary key and the unique keys of a row. The two partial indexes of
`user_roles` make NULL an ordinary value of `organization_id`. -/
def keys : (τ : Table) → τ.Row → List LockKey
  | users, r => [.primary users r.id, .email r.email]
  | refreshTokens, r => [.primary refreshTokens r.id]
  | roles, r => [.primary roles r.id, .roleName r.name]
  | permissions, r => [.primary permissions r.id, .permission r.resource r.action]
  | rolePermissions, r => [.rolePermission r.roleId r.permissionId]
  | userRoles, r => [.primary userRoles r.id, .assignment r.userId r.roleId r.organizationId]
  | organizations, r => [.primary organizations r.id, .organizationName r.name]
  | memberships, r => [.primary memberships r.id, .membershipOf r.userId r.organizationId]
  | auditLogs, r => [.primary auditLogs r.id]

/-- The rows that the foreign keys of a row point to. -/
def references : (τ : Table) → τ.Row → List LockKey
  | users, _ | permissions, _ | organizations, _ => []
  | refreshTokens, r =>
      .primary users r.userId :: r.replacedBy.toList.map (.primary refreshTokens)
  | roles, r => r.organizationId.toList.map (.primary organizations)
  | rolePermissions, r => [.primary roles r.roleId, .primary permissions r.permissionId]
  | userRoles, r =>
      .primary users r.userId :: .primary roles r.roleId ::
        r.organizationId.toList.map (.primary organizations)
  | memberships, r => [.primary users r.userId, .primary organizations r.organizationId]
  | auditLogs, r =>
      r.actorUserId.toList.map (.primary users) ++
        r.organizationId.toList.map (.primary organizations)

/-- The columns that no statement of the application ever changes. -/
def fixed : (τ : Table) → τ.Row → τ.Row
  | users, r => { r with isActive := true, lastLoginAt := none }
  | refreshTokens, r => { r with revokedAt := none, replacedBy := none }
  | roles, r | permissions, r | rolePermissions, r | userRoles, r | organizations, r
  | memberships, r | auditLogs, r => r

theorem mem_keys_table {τ : Table} {r : τ.Row} {k : LockKey} (h : k ∈ τ.keys r) : k.table = τ := by
  cases τ <;> simp only [keys, List.mem_cons, List.not_mem_nil, or_false] at h
  all_goals first
    | (subst h; rfl)
    | (cases h <;> (subst_vars; rfl))

@[simp] theorem keys_fixed (τ : Table) (r : τ.Row) : τ.keys (τ.fixed r) = τ.keys r := by
  cases τ <;> rfl

end Table

structure Tables where
  users : List User := []
  refreshTokens : List RefreshToken := []
  roles : List Role := []
  permissions : List Permission := []
  rolePermissions : List RolePermission := []
  userRoles : List UserRole := []
  organizations : List Organization := []
  memberships : List OrganizationMembership := []
  auditLogs : List AuditLog := []
deriving DecidableEq, Repr

namespace Tables

def rows (t : Tables) : (τ : Table) → List τ.Row
  | .users => t.users
  | .refreshTokens => t.refreshTokens
  | .roles => t.roles
  | .permissions => t.permissions
  | .rolePermissions => t.rolePermissions
  | .userRoles => t.userRoles
  | .organizations => t.organizations
  | .memberships => t.memberships
  | .auditLogs => t.auditLogs

def insert (t : Tables) : (τ : Table) → τ.Row → Tables
  | .users, r => { t with users := t.users ++ [r] }
  | .refreshTokens, r => { t with refreshTokens := t.refreshTokens ++ [r] }
  | .roles, r => { t with roles := t.roles ++ [r] }
  | .permissions, r => { t with permissions := t.permissions ++ [r] }
  | .rolePermissions, r => { t with rolePermissions := t.rolePermissions ++ [r] }
  | .userRoles, r => { t with userRoles := t.userRoles ++ [r] }
  | .organizations, r => { t with organizations := t.organizations ++ [r] }
  | .memberships, r => { t with memberships := t.memberships ++ [r] }
  | .auditLogs, r => { t with auditLogs := t.auditLogs ++ [r] }

theorem rows_insert_self (t : Tables) (τ : Table) (r : τ.Row) :
    (t.insert τ r).rows τ = t.rows τ ++ [r] := by
  cases τ <;> rfl

theorem rows_insert_ne (t : Tables) {σ τ : Table} (h : σ ≠ τ) (r : τ.Row) :
    (t.insert τ r).rows σ = t.rows σ := by
  cases τ <;> cases σ <;> first | rfl | exact absurd rfl h

/-- Some row has the key. -/
def hasKey (t : Tables) (k : LockKey) : Bool :=
  (t.rows k.table).any (k ∈ k.table.keys ·)

theorem hasKey_iff {t : Tables} {k : LockKey} :
    t.hasKey k ↔ ∃ τ, ∃ r ∈ t.rows τ, k ∈ τ.keys r := by
  simp only [hasKey, List.any_eq_true, decide_eq_true_eq]
  constructor
  · intro ⟨r, hr, hk⟩
    exact ⟨_, r, hr, hk⟩
  · intro ⟨τ, r, hr, hk⟩
    obtain rfl := Table.mem_keys_table hk
    exact ⟨r, hr, hk⟩

end Tables

/-- A change of one row. Rows of three tables only are ever deleted, and no
foreign key refers to any of them. -/
inductive Write where
  | insert (τ : Table) (row : τ.Row)
  | deleteRolePermission (row : RolePermission)
  | deleteUserRole (row : UserRole)
  | deleteMembership (row : OrganizationMembership)
  | setLastLoginAt (id : Uuid) (t : Time)
  | setIsActive (id : Uuid) (active : Bool)
  | setRevokedAt (id : Uuid) (t : Time)
  | setReplacedBy (id child : Uuid)

namespace Write

def keys : Write → List LockKey
  | insert τ r => τ.keys r
  | deleteRolePermission r => Table.rolePermissions.keys r
  | deleteUserRole r => Table.userRoles.keys r
  | deleteMembership r => Table.memberships.keys r
  | setLastLoginAt id _ | setIsActive id _ => [.primary .users id]
  | setRevokedAt id _ | setReplacedBy id _ => [.primary .refreshTokens id]

/-- The keys that must not exist yet. -/
def adds : Write → List LockKey
  | insert τ r => τ.keys r
  | _ => []

/-- The keys that must exist. -/
def requires : Write → List LockKey
  | insert τ r => τ.references r
  | setReplacedBy _ child => [.primary .refreshTokens child]
  | _ => []

def apply : Write → Tables → Tables
  | insert τ r, t => t.insert τ r
  | deleteRolePermission r, t => { t with rolePermissions := t.rolePermissions.filter (· ≠ r) }
  | deleteUserRole r, t => { t with userRoles := t.userRoles.filter (· ≠ r) }
  | deleteMembership r, t => { t with memberships := t.memberships.filter (· ≠ r) }
  | setLastLoginAt id now, t =>
      { t with users := t.users.map fun u =>
          if u.id = id then { u with lastLoginAt := some now } else u }
  | setIsActive id active, t =>
      { t with users := t.users.map fun u =>
          if u.id = id then { u with isActive := active } else u }
  | setRevokedAt id now, t =>
      { t with refreshTokens := t.refreshTokens.map fun r =>
          if r.id = id then { r with revokedAt := some now } else r }
  | setReplacedBy id child, t =>
      { t with refreshTokens := t.refreshTokens.map fun r =>
          if r.id = id then { r with replacedBy := some child } else r }

end Write

namespace Write

/-- What a write does to the rows of one table. -/
inductive Acts (w : Write) (τ : Table) : (List τ.Row → List τ.Row) → Prop
  | keep : Acts w τ id
  | insert (r : τ.Row) (hw : w = .insert τ r) : Acts w τ (· ++ [r])
  | delete (p : τ.Row → Bool) (hp : ∀ x, p x = false → τ.keys x = w.keys)
      (hτ : ∀ x, τ.fixed x = x) (hdel : τ ∈ [.rolePermissions, .userRoles, .memberships]) :
      Acts w τ (List.filter p)
  | update (id : Uuid) (f : τ.Row → τ.Row) (hw : w.keys = [.primary τ id])
      (hfix : ∀ x, τ.fixed (f x) = τ.fixed x)
      (hid : ∀ x, .primary τ id ∉ τ.keys x → f x = x)
      (href : ∀ x, ∀ k ∈ τ.references (f x), k ∈ τ.references x ∨ k ∈ w.requires) :
      Acts w τ (List.map f)

theorem apply_acts (w : Write) (τ : Table) :
    ∃ f, w.Acts τ f ∧ ∀ t, (w.apply t).rows τ = f (t.rows τ) := by
  cases w with
  | insert σ r =>
      by_cases h : τ = σ
      · subst h
        exact ⟨_, .insert r rfl, fun t => t.rows_insert_self τ r⟩
      · exact ⟨_, .keep, fun t => t.rows_insert_ne h r⟩
  | deleteRolePermission r =>
      cases τ
      case rolePermissions =>
        refine ⟨_, .delete (· ≠ r) (fun x hx => ?_) (fun _ => rfl) (by decide), fun t => rfl⟩
        obtain rfl : x = r := by simpa using hx
        rfl
      all_goals exact ⟨_, .keep, fun t => rfl⟩
  | deleteUserRole r =>
      cases τ
      case userRoles =>
        refine ⟨_, .delete (· ≠ r) (fun x hx => ?_) (fun _ => rfl) (by decide), fun t => rfl⟩
        obtain rfl : x = r := by simpa using hx
        rfl
      all_goals exact ⟨_, .keep, fun t => rfl⟩
  | deleteMembership r =>
      cases τ
      case memberships =>
        refine ⟨_, .delete (· ≠ r) (fun x hx => ?_) (fun _ => rfl) (by decide), fun t => rfl⟩
        obtain rfl : x = r := by simpa using hx
        rfl
      all_goals exact ⟨_, .keep, fun t => rfl⟩
  | setLastLoginAt id now | setIsActive id active =>
      cases τ
      case users =>
        refine ⟨_, .update id _ rfl (fun x => ?_) (fun x hx => if_neg fun h => ?_)
          (fun x k hk => .inl hk), fun t => rfl⟩
        · split <;> rfl
        · simp [Table.keys, h] at hx
      all_goals exact ⟨_, .keep, fun t => rfl⟩
  | setRevokedAt id now =>
      cases τ
      case refreshTokens =>
        refine ⟨_, .update id _ rfl (fun x => ?_) (fun x hx => if_neg fun h => ?_)
          (fun x k hk => .inl ?_), fun t => rfl⟩
        · split <;> rfl
        · simp [Table.keys, h] at hx
        · split at hk <;> exact hk
      all_goals exact ⟨_, .keep, fun t => rfl⟩
  | setReplacedBy id child =>
      cases τ
      case refreshTokens =>
        refine ⟨_, .update id _ rfl (fun x => ?_) (fun x hx => if_neg fun h => ?_)
          (fun x k hk => ?_), fun t => rfl⟩
        · split <;> rfl
        · simp [Table.keys, h] at hx
        · split at hk
          · simp [Table.references] at hk
            cases hk with
            | inl hk => exact .inl (hk ▸ List.mem_cons_self)
            | inr hk => exact .inr (List.mem_singleton.mpr hk)
          · exact .inl hk
      all_goals exact ⟨_, .keep, fun t => rfl⟩

end Write

/-- What a lock on the key protects of a row that has it: of a primary key the
whole row, of an indexed value the fixed columns. -/
def LockKey.part (k : LockKey) (r : k.table.Row) : k.table.Row :=
  match k with
  | .primary _ _ => r
  | .email _ | .roleName _ | .permission _ _ | .rolePermission _ _ | .assignment _ _ _
  | .organizationName _ | .membershipOf _ _ => Table.fixed _ r

namespace LockKey

def Same (k : LockKey) (t t' : Tables) : Prop :=
  ((t.rows k.table).filter (k ∈ k.table.keys ·)).map k.part =
    ((t'.rows k.table).filter (k ∈ k.table.keys ·)).map k.part

theorem part_eq (k : LockKey) :
    (∃ id, k = primary k.table id ∧ k.part = fun r => r) ∨ k.part = k.table.fixed := by
  cases k
  case primary τ id => exact .inl ⟨id, rfl, rfl⟩
  all_goals exact .inr rfl

theorem part_fixed (k : LockKey) (h : ∀ x, k.table.fixed x = x) : k.part = fun r => r := by
  cases k.part_eq with
  | inl hk => exact hk.choose_spec.2
  | inr hk => exact hk.trans (funext h)

end LockKey

theorem Table.primary_unique {τ : Table} {x : τ.Row} {a b : Uuid}
    (ha : .primary τ a ∈ τ.keys x) (hb : .primary τ b ∈ τ.keys x) : a = b := by
  cases τ <;> simp [keys] at ha hb
  all_goals rw [ha, hb]

namespace Write
variable {w : Write} {k : LockKey}

/-- An update moves no row to another key. -/
private theorem filter_map_keys {τ : Table} {f : τ.Row → τ.Row}
    (hfix : ∀ x, τ.fixed (f x) = τ.fixed x) (k : LockKey) (rows : List τ.Row) :
    (rows.map f).filter (k ∈ τ.keys ·) = (rows.filter (k ∈ τ.keys ·)).map f := by
  have hkeys : ∀ x, τ.keys (f x) = τ.keys x := fun x => by
    rw [← Table.keys_fixed, hfix, Table.keys_fixed]
  rw [List.filter_map]
  simp only [Function.comp_def, hkeys]

theorem same_apply (t : Tables) (h : k ∉ w.keys) : k.Same t (w.apply t) := by
  obtain ⟨f, hacts, hf⟩ := w.apply_acts k.table
  rw [LockKey.Same, hf]
  cases hacts with
  | keep => rfl
  | insert r hw =>
      subst hw
      have hr : k ∉ k.table.keys r := h
      simp [List.filter_append, hr]
  | delete p hp hτ hdel =>
      rw [List.filter_filter]
      congr 1
      refine List.filter_congr fun x _ => ?_
      by_cases hx : k ∈ k.table.keys x
      · have : p x = true := by
          cases hpx : p x with
          | true => rfl
          | false => exact absurd (hp x hpx ▸ hx) h
        simp [hx, this]
      · simp [hx]
  | update id f hw hfix hid =>
      rw [filter_map_keys hfix, List.map_map]
      refine List.map_congr_left fun x hx => ?_
      have hkx : k ∈ k.table.keys x := by simpa using (List.mem_filter.mp hx).2
      cases k.part_eq with
      | inl hk =>
          obtain ⟨a, ha, hpart⟩ := hk
          have hne : .primary k.table id ∉ k.table.keys x := by
            intro hx'
            have hka : .primary k.table a ∈ k.table.keys x := ha ▸ hkx
            refine h (hw ▸ List.mem_singleton.mpr ?_)
            exact Table.primary_unique hka hx' ▸ ha
          simp only [Function.comp_apply, hid x hne]
      | inr hpart => simp only [Function.comp_apply, hpart, hfix]

theorem same_congr (w : Write) {t t' : Tables} (h : k.Same t t') :
    k.Same (w.apply t) (w.apply t') := by
  obtain ⟨f, hacts, hf⟩ := w.apply_acts k.table
  rw [LockKey.Same] at h ⊢
  rw [hf, hf]
  cases hacts with
  | keep => exact h
  | insert r hw => simp only [List.filter_append, List.map_append, h]
  | delete p hp hτ hdel =>
      have hpart := k.part_fixed hτ
      simp only [hpart, List.map_id'] at h ⊢
      rw [List.filter_filter, List.filter_filter]
      simp only [Bool.and_comm _ (p _)]
      rw [← List.filter_filter, ← List.filter_filter, h]
  | update id f hw hfix hid =>
      rw [filter_map_keys hfix, filter_map_keys hfix]
      cases k.part_eq with
      | inl hk =>
          have hpart := hk.choose_spec.2
          simp only [hpart, List.map_id'] at h ⊢
          rw [h]
      | inr hpart =>
          simp only [hpart, List.map_map, Function.comp_def, hfix] at h ⊢
          exact h

end Write

/-- The nine tables as a store. -/
@[reducible] def tableStore : Store where
  State := Tables
  Write := Write
  Key := LockKey
  decEq := inferInstance
  apply := Write.apply
  keys := Write.keys
  Same := LockKey.Same
  same_refl _ _ := rfl
  same_trans h h' := h.trans h'
  same_apply s h := Write.same_apply s h

abbrev Database := tableStore.Committed

end SecureIam
