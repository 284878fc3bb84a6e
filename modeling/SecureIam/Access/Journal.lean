import SecureIam.Access.Changes
import Mathlib.Data.Finset.Basic

/-!
The audit log as a journal: what its events say about roles, grants, assignments,
organizations and memberships, replayed over the tables at the beginning.
-/
namespace SecureIam
open Lib
variable {env : Environment} {t t' : Tables} {a : Administration} {id : Uuid} {now : Time}
    {w : Write}
  {event : AuditRecord} {r : Response}

structure Journal where
  roles : Finset (Uuid × String × Option Uuid)
  rolePermissions : Finset (Uuid × Uuid)
  userRoles : Finset (Uuid × Uuid × Option Uuid)
  organizations : Finset (Uuid × String)
  memberships : Finset (Uuid × Uuid)
deriving DecidableEq

def RolePermission.entry (r : RolePermission) : Uuid × Uuid := (r.roleId, r.permissionId)

def UserRole.entry (r : UserRole) : Uuid × Uuid × Option Uuid :=
  (r.userId, r.roleId, r.organizationId)

def OrganizationMembership.entry (r : OrganizationMembership) : Uuid × Uuid :=
  (r.userId, r.organizationId)

def Tables.journal (t : Tables) : Journal where
  roles := (t.roles.map fun r => (r.id, r.name, r.organizationId)).toFinset
  rolePermissions := (t.rolePermissions.map RolePermission.entry).toFinset
  userRoles := (t.userRoles.map UserRole.entry).toFinset
  organizations := (t.organizations.map fun r => (r.id, r.name)).toFinset
  memberships := (t.memberships.map OrganizationMembership.entry).toFinset

namespace AuditLog

def field (e : AuditLog) (name : String) : Option MetaValue := e.eventMetadata.bind (·.lookup name)

def textField (e : AuditLog) (name : String) : Option String :=
  match e.field name with
  | some (.str s) => some s
  | _ => none

def uuidField (e : AuditLog) (name : String) : Option Uuid :=
  match e.field name with
  | some (.uuid u) => some u
  | _ => none

end AuditLog

namespace Journal

/-- The change of one event; an event that does not say enough changes nothing. -/
def change? (j : Journal) (e : AuditLog) : Option Journal := do
  match e.action with
  | .roleCreated =>
      return { j with roles := insert (← e.targetId, ← e.textField "name",
        e.organizationId) j.roles }
  | .roleAssigned =>
      return { j with
        userRoles := insert (← e.targetId, ← e.uuidField "role_id", e.organizationId) j.userRoles }
  | .roleRevoked =>
      return { j with
        userRoles := j.userRoles.erase (← e.targetId, ← e.uuidField "role_id", e.organizationId) }
  | .permissionAssignedToRole =>
      return { j with rolePermissions := insert (← e.targetId, ← e.uuidField
        "permission_id") j.rolePermissions }
  | .permissionRemovedFromRole =>
      return { j with rolePermissions :=
        j.rolePermissions.erase (← e.targetId, ← e.uuidField "permission_id") }
  | .organizationCreated =>
      return { j with organizations := insert (← e.targetId, ← e.textField "name") j.organizations }
  | .organizationMemberAdded =>
      return { j with memberships := insert (← e.targetId, ← e.organizationId) j.memberships }
  | .organizationMemberRemoved =>
      return { j with memberships := j.memberships.erase (← e.targetId, ← e.organizationId) }
  | _ => none

def replay (j : Journal) (e : AuditLog) : Journal := (j.change? e).getD j

end Journal

theorem toFinset_map_append {α β : Type} [DecidableEq β] (f : α → β) (xs : List α) (x : α) :
    ((xs ++ [x]).map f).toFinset = insert (f x) (xs.map f).toFinset := by
  ext y
  simp only [List.map_append, List.mem_toFinset, List.mem_append, List.map_cons, List.map_nil,
    List.mem_singleton, Finset.mem_insert]
  exact or_comm

theorem toFinset_map_filter {α β : Type} [DecidableEq α] [DecidableEq β] {f : α → β} {xs : List α}
    {x : α} (h : ∀ y ∈ xs, f y = f x → y = x) :
    ((xs.filter (· ≠ x)).map f).toFinset = (xs.map f).toFinset.erase (f x) := by
  ext b
  simp only [List.mem_toFinset, List.mem_map, List.mem_filter, decide_eq_true_eq, Finset.mem_erase]
  constructor
  · intro hb
    obtain ⟨y, ⟨hy, hne⟩, rfl⟩ := hb
    exact ⟨fun heq => hne (h y hy heq), y, hy, rfl⟩
  · intro hb
    obtain ⟨hne, y, hy, rfl⟩ := hb
    exact ⟨y, ⟨hy, fun heq => hne (heq ▸ rfl)⟩, rfl⟩

section Unique
variable (ht : t.Schema)
include ht

theorem assignment_unique {ur : UserRole} (hur : ur ∈ t.userRoles) :
    ∀ x ∈ t.userRoles, x.entry = ur.entry → x = ur := by
  intro x hx heq
  simp only [UserRole.entry, Prod.mk.injEq] at heq
  exact ht.row_unique (τ := .userRoles)
    (k := .assignment ur.userId ur.roleId ur.organizationId) hx hur
    (by simp [Table.keys, heq]) (by simp [Table.keys])

theorem grant_unique {rp : RolePermission} (hrp : rp ∈ t.rolePermissions) :
    ∀ x ∈ t.rolePermissions, x.entry = rp.entry → x = rp := by
  intro x hx heq
  simp only [RolePermission.entry, Prod.mk.injEq] at heq
  exact ht.row_unique (τ := .rolePermissions) (k := .rolePermission rp.roleId
    rp.permissionId) hx hrp
    (by simp [Table.keys, heq]) (by simp [Table.keys])

theorem membership_unique {m : OrganizationMembership} (hm : m ∈ t.memberships) :
    ∀ x ∈ t.memberships, x.entry = m.entry → x = m := by
  intro x hx heq
  simp only [OrganizationMembership.entry, Prod.mk.injEq] at heq
  exact ht.row_unique (τ := .memberships) (k := .membershipOf m.userId m.organizationId) hx hm
    (by simp [Table.keys, heq]) (by simp [Table.keys])

end Unique

/-- The event of a change tells it. -/
theorem Administration.Changes.replay (h : a.Changes t id now w event r) (ht : t.Schema)
    (eventId : Uuid) (eventTime : Time) :
    t.journal.replay ((AuditLogRepository.draft event).row eventId eventTime) =
      (w.apply t).journal := by
  cases h with
  | createRole hname horg =>
      simp only [Tables.journal, Write.apply, Tables.insert, toFinset_map_append]
      rfl
  | assignRole hrole hid hscope horg hfree huser =>
      simp only [Tables.journal, Write.apply, Tables.insert, toFinset_map_append]
      rfl
  | revokeRole hur hu hx ho =>
      simp only [Tables.journal, Write.apply]
      rw [toFinset_map_filter (assignment_unique ht hur), UserRole.entry, hu, hx, ho]
      rfl
  | assignPermissionToRole hrole hid hpermission hfree =>
      simp only [Tables.journal, Write.apply, Tables.insert, toFinset_map_append]
      rfl
  | removePermissionFromRole hrole hid hrp hx hp =>
      simp only [Tables.journal, Write.apply]
      rw [toFinset_map_filter (grant_unique ht hrp), RolePermission.entry, hx, hp]
      rfl
  | createOrganization hname =>
      simp only [Tables.journal, Write.apply, Tables.insert, toFinset_map_append]
      rfl
  | addMember huser horg hfree =>
      simp only [Tables.journal, Write.apply, Tables.insert, toFinset_map_append]
      rfl
  | removeMember hm hu ho =>
      simp only [Tables.journal, Write.apply]
      rw [toFinset_map_filter (membership_unique ht hm), OrganizationMembership.entry, hu, ho]
      rfl

theorem Administration.Outcome.replay {out : Except Error Response} (h : Outcome t a out t')
    (ht : t.Schema) (hout : out ≠ .error .integrityError) :
    ∃ events, t'.auditLogs = t.auditLogs ++ events ∧
      events.foldl Journal.replay t.journal = t'.journal := by
  cases h with
  | refused _ | kept _ => exact ⟨[], (List.append_nil _).symm, rfl⟩
  | unrecorded _ _ _ _ => exact absurd rfl hout
  | changed h _ _ _ eventId eventTime =>
      refine ⟨[_], ?_, h.replay ht eventId eventTime⟩
      cases h <;> rfl

theorem serial_replay {p p' : Calls env} (hp : p.Sound)
    {calls : List (Administration × Except Error Response)}
    (hserial : Serial (serve env) p (calls.map fun c => (c.1.request, c.2)) p')
    (hfailure : ∀ c ∈ calls, c.2 ≠ .error .integrityError) :
    ∃ events, p'.tables.auditLogs = p.tables.auditLogs ++ events ∧
      events.foldl Journal.replay p.tables.journal = p'.tables.journal := by
  induction calls generalizing p with
  | nil =>
      cases hserial
      exact ⟨[], (List.append_nil _).symm, rfl⟩
  | cons c calls ih =>
      cases hserial with
      | cons hserved hrest =>
          obtain ⟨events, hlogs, hreplay⟩ := (Administration.served hp hserved).replay hp.inv.schema
            (hfailure c List.mem_cons_self)
          obtain ⟨rest, hlogs', hreplay'⟩ := ih (hp.reaches hserved.reaches) hrest
            fun c' hc' => hfailure c' (List.mem_cons_of_mem _ hc')
          refine ⟨events ++ rest, ?_, ?_⟩
          · rw [hlogs', hlogs, List.append_assoc]
          · rw [List.foldl_append, hreplay, hreplay']

/-- Replaying the log over the tables that the run started from gives the tables that it
ends with. -/
theorem journal_complete (ht : t.Ready env) (hempty : t.auditLogs = []) {p' : Calls env}
    {calls : List (Administration × Except Error Response)}
    (hserial : Serial (serve env) (Calls.fresh env t) (calls.map fun c => (c.1.request, c.2)) p')
    (hfailure : ∀ c ∈ calls, c.2 ≠ .error .integrityError) :
    p'.tables.auditLogs.foldl Journal.replay t.journal = p'.tables.journal := by
  obtain ⟨events, hlogs, hreplay⟩ := serial_replay (Calls.sound_fresh ht) hserial hfailure
  have hlogs' : p'.tables.auditLogs = events := by
    rw [hlogs]
    exact (congrArg (· ++ events) hempty).trans (List.nil_append events)
  rw [hlogs']
  exact hreplay

/-- A role is created and another one assigned, an assignment is refused, one is revoked,
and a removal finds nothing. -/
def fiveCalls : List (Administration × Except Error Response) :=
  [(.createRole "writer" none none ⟨1⟩, .ok (.role ⟨⟨0⟩, "writer", none, false, none⟩)),
    (.assignRole ⟨1⟩ ⟨5⟩ none ⟨1⟩, .ok .done),
    (.assignRole ⟨1⟩ ⟨7⟩ none ⟨1⟩, .error (.roleOrganizationMismatch
      "Role 7 is scoped to organization 9, cannot be assigned under organization_id=None")),
    (.revokeRole ⟨1⟩ ⟨7⟩ (some ⟨9⟩) ⟨1⟩, .ok (.changed true)),
    (.removeMember ⟨3⟩ ⟨9⟩ ⟨1⟩, .ok (.changed false))]

theorem journal_complete_smallTables : ∃ p' : Calls plainEnvironment,
    Serial (serve plainEnvironment) (Calls.fresh plainEnvironment smallTables)
      (fiveCalls.map fun c => (c.1.request, c.2)) p' ∧
    p'.tables.auditLogs.foldl Journal.replay smallTables.journal = p'.tables.journal := by
  have hserial : ∃ p' : Calls plainEnvironment, Serial (serve plainEnvironment)
      (Calls.fresh plainEnvironment smallTables)
      (fiveCalls.map fun c => (c.1.request, c.2)) p' :=
    Serial.of_serveAll (by decide +kernel)
  obtain ⟨p', hserial⟩ := hserial
  exact ⟨p', hserial, journal_complete smallTables_ready rfl hserial (by decide)⟩

end SecureIam
