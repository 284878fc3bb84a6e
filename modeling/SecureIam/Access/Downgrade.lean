import SecureIam.Access.Permissions
import SecureIam.Access.Scopes
import SecureIam.Db.Migrations

/-!
Downgrading the revision that adds organizations. It drops a column that says where an
assignment holds, so it is harmless just where every assignment holds everywhere.
-/
namespace SecureIam
open Lib Migrations UserRoleRepository
variable {env : Environment} {t : Tables} {d : PhaseTwo.Tables}

namespace Tables

/-- The user holds the role everywhere, and the role belongs to no organization. -/
def HeldGlobally (t : Tables) (u r : Uuid) : Prop :=
  (∃ ur ∈ t.userRoles, ur.userId = u ∧ ur.roleId = r ∧ ur.organizationId = none) ∧
    ∃ role ∈ t.roles, role.id = r ∧ role.organizationId = none

instance (t : Tables) (u r : Uuid) : Decidable (t.HeldGlobally u r) :=
  inferInstanceAs (Decidable ((∃ _ ∈ _, _) ∧ ∃ _ ∈ _, _))

def AllGlobal (t : Tables) : Prop := ∀ ur ∈ t.userRoles, ur.organizationId = none

theorem AllGlobal.nodup (h : t.AllGlobal) (ht : t.Schema) :
    (t.userRoles.map assignmentPair).Nodup := by
  refine List.Nodup.map_on (fun ur hur ur' hur' heq => ?_) (ht.nodup .userRoles)
  have hkey : .assignment ur.userId ur.roleId none ∈ Table.userRoles.keys ur := by
    simp [Table.keys, h ur hur]
  have hkey' : .assignment ur.userId ur.roleId none ∈ Table.userRoles.keys ur' := by
    obtain ⟨hu, hr⟩ := Prod.mk.inj heq
    simp [Table.keys, h ur' hur', hu, hr]
  exact ht.row_unique (τ := .userRoles) hur hur' hkey hkey'

/-- Without a scope, an assignment can only be one of a global role. -/
theorem AllGlobal.held (h : t.AllGlobal) (ht : t.Schema) (hs : t.Scoped) {ur : UserRole}
    (hur : ur ∈ t.userRoles) : t.HeldGlobally ur.userId ur.roleId := by
  refine ⟨⟨ur, hur, rfl, rfl, h ur hur⟩, ?_⟩
  obtain ⟨role, hrole, hid, hadmits⟩ := hs.admits ht hur
  refine ⟨role, hrole, hid, ?_⟩
  by_contra horg
  exact horg ((hadmits horg).symm.trans (h ur hur))

end Tables

/-- A downgrade that widens nobody's access: whatever pair it leaves was held globally,
and read back by `upgrade()` it grants nobody a permission everywhere that was not. -/
structure Narrows (env : Environment) (t : Tables) (d : PhaseTwo.Tables) : Prop where
  pairs : ∀ ur ∈ d.userRoles, t.HeldGlobally ur.userId ur.roleId
  permissions : ∀ u, permissionsForUser env u none (upgrade d) ⊆ permissionsForUser env u none t

theorem upgrade_grants {head : Revision} (hd : downgradeFrom head t = .ok d) {u : Uuid}
    {p : Permission} (h : (upgrade d).Grants u none p)
    (hpairs : ∀ ur ∈ d.userRoles, t.HeldGlobally ur.userId ur.roleId) :
    t.Grants u none p := by
  obtain ⟨-, rfl⟩ := downgrade_eq_ok.mp hd
  obtain ⟨ur, hur, ⟨huser, -⟩, rp, hrp, hrole, hperm⟩ := h
  obtain ⟨ur', hur', rfl⟩ := List.mem_map.mp hur
  obtain ⟨⟨old, hold, holdUser, holdRole, holdOrg⟩, -⟩ := hpairs ur' hur'
  exact ⟨old, hold, ⟨holdUser.trans huser, .inl holdOrg⟩, rp, undone_rolePermissions head t hrp,
    hrole.trans holdRole.symm, hperm⟩

theorem narrows_of_pairs {head : Revision} (hd : downgradeFrom head t = .ok d)
    (hpairs : ∀ ur ∈ d.userRoles, t.HeldGlobally ur.userId ur.roleId) : Narrows env t d := by
  refine ⟨hpairs, fun u p hp => ?_⟩
  obtain ⟨hperm, hgrants⟩ := mem_permissionsForUser.mp hp
  refine mem_permissionsForUser.mpr ⟨?_, upgrade_grants hd hgrants hpairs⟩
  obtain ⟨-, rfl⟩ := downgrade_eq_ok.mp hd
  exact undone_permissions head t hperm

/-- Two rows of one pair do not fit under the old constraint. -/
theorem allGlobal_of_pairs {head : Revision} (hd : downgradeFrom head t = .ok d)
    (hpairs : ∀ ur ∈ d.userRoles, t.HeldGlobally ur.userId ur.roleId) : t.AllGlobal := by
  intro ur hur
  obtain ⟨hnodup, rfl⟩ := downgrade_eq_ok.mp hd
  simp only [undone_userRoles] at hnodup hpairs
  obtain ⟨⟨old, hold, huser, hrole, horg⟩, -⟩ := hpairs _ (List.mem_map_of_mem hur)
  have hpair : assignmentPair old = assignmentPair ur := Prod.ext huser hrole
  obtain rfl : old = ur := List.inj_on_of_nodup_map hnodup hold hur hpair
  exact horg

/-- The downgrade succeeds and widens nobody's access just when no assignment is scoped. -/
theorem downgrade_narrows_iff {p : Calls env} (h : p.Reachable) (head : Revision) :
    (∃ d, downgradeFrom head p.tables = .ok d ∧ Narrows env p.tables d) ↔
      ∀ ur ∈ p.tables.userRoles, ur.organizationId = none := by
  constructor
  · intro ⟨d, hd, hnarrows⟩
    exact allGlobal_of_pairs hd hnarrows.pairs
  · intro hglobal
    have hglobal : p.tables.AllGlobal := hglobal
    have hschema := h.sound.inv.schema
    have hnodup : ((head.undone p.tables).userRoles.map assignmentPair).Nodup := by
      rw [undone_userRoles]
      exact hglobal.nodup hschema
    refine ⟨_, downgrade_eq_ok.mpr ⟨hnodup, rfl⟩, narrows_of_pairs
      (downgrade_eq_ok.mpr ⟨hnodup, rfl⟩) ?_⟩
    intro ur hur
    simp only [undone_userRoles] at hur
    obtain ⟨old, hold, rfl⟩ := List.mem_map.mp hur
    exact hglobal.held hschema h.scoped hold

/-- A user who holds one global role, everywhere. -/
def heldEverywhere : Calls plainEnvironment :=
  Calls.after plainEnvironment
    [.spawn (.register "a" "p"), .finish 0, .spawn (.createRole "reader" none none ⟨2⟩), .finish 1,
      .spawn (.assignRole ⟨2⟩ ⟨16⟩ none ⟨2⟩), .finish 2]

theorem downgrade_narrows_iff_heldEverywhere :
    heldEverywhere.tables.userRoles.map assignmentPair = [(⟨2⟩, ⟨16⟩)] ∧
      ∃ d, downgradeFrom .seedAuditView heldEverywhere.tables = .ok d ∧
        Narrows plainEnvironment heldEverywhere.tables d := by
  have hreachable : heldEverywhere.Reachable := Calls.reachable_after _ _
  exact ⟨by decide +kernel, (downgrade_narrows_iff hreachable
    .seedAuditView).mpr (by decide +kernel)⟩

/-- A member of an organization who holds a global role both there and everywhere. -/
def heldTwice : Calls plainEnvironment :=
  withMember.played (serve plainEnvironment)
    [.spawn (.createRole "reader" none none ⟨2⟩), .finish 6,
      .spawn (.assignRole ⟨2⟩ ⟨88⟩ none ⟨2⟩), .finish 7,
      .spawn (.assignRole ⟨2⟩ ⟨88⟩ (some ⟨16⟩) ⟨2⟩), .finish 8]

/-- The first state's downgrade grants everywhere what was granted in one organization;
the second's fails. -/
theorem downgrade_widens : heldThere.Reachable ∧ heldTwice.Reachable ∧
    permissionsForUser plainEnvironment ⟨2⟩ none heldThere.tables = [] ∧
    (∃ d, downgradeFrom .addOrganizations heldThere.tables = .ok d ∧
      ¬ Narrows plainEnvironment heldThere.tables d ∧
      permissionsForUser plainEnvironment ⟨2⟩ none (upgrade d) = [⟨⟨11⟩, "doc", "read", none⟩]) ∧
    downgradeFrom .addOrganizations heldTwice.tables = .error .integrityError := by
  have hthere : heldThere.Reachable :=
    ⟨onePermission, onePermission_seeded, Pool.played_reaches _ _ _⟩
  have htwice : heldTwice.Reachable := withMember_reachable.played _
  refine ⟨hthere, htwice, by decide +kernel, ?_, by decide +kernel⟩
  refine ⟨_, downgrade_eq_ok.mpr ⟨by decide +kernel, rfl⟩, fun hnarrows => ?_, by decide +kernel⟩
  have hheld := hnarrows.pairs ⟨⟨86⟩, ⟨2⟩, ⟨32⟩⟩ (by decide +kernel)
  exact absurd hheld (by decide +kernel)

end SecureIam
