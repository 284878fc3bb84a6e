import SecureIam.Access.Duplicates
import SecureIam.Access.Permissions
import SecureIam.Access.Scopes

/-!
What a revocation takes away: one assignment of one scope, and of the decisions those
that nothing else supports.
-/
namespace SecureIam
open Lib
variable {env : Environment} {p p' : Calls env} {t t' : Tables} {u x : Uuid} {o : Option Uuid}
  {actor : Uuid} {out : Except Error Response}

/-- The assignment that `revoke_role` looks for. -/
def UserRole.Matches (ur : UserRole) (u x : Uuid) (o : Option Uuid) : Prop :=
  ur.userId = u ∧ ur.roleId = x ∧ ur.organizationId = o

instance (ur : UserRole) (u x : Uuid) (o : Option Uuid) : Decidable (ur.Matches u x o) :=
  inferInstanceAs (Decidable (_ ∧ _ ∧ _))

/-- The tables that decisions depend on are the same, but for the assignments. -/
structure Tables.SameGrants (t t' : Tables) : Prop where
  users : t'.users = t.users
  permissions : t'.permissions = t.permissions
  rolePermissions : t'.rolePermissions = t.rolePermissions

theorem Tables.SameGrants.allows {r a : String} (h : t.SameGrants t')
    (hur : t'.userRoles = t.userRoles) :
    t'.Allows u r a o ↔ t.Allows u r a o := by
  simp only [Tables.Allows, Tables.Active, Tables.Grants, h.users, h.permissions,
    h.rolePermissions, hur]

theorem find?_matches : (t.userRoles.find? fun ur => ur.userId = u ∧ ur.roleId = x ∧
    ur.organizationId = o) =
    none ↔ ∀ ur ∈ t.userRoles, ¬ ur.Matches u x o := by
  simp [List.find?_eq_none, UserRole.Matches]

/-- What is granted once the assignment is gone. -/
theorem Tables.SameGrants.grants {u' : Uuid} {o' : Option Uuid} {q : Permission}
    (h : t.SameGrants t') (hroles : t'.userRoles = t.userRoles.filter fun ur =>
      ¬ ur.Matches u x o) :
    t'.Grants u' o' q ↔ ∃ ur ∈ t.userRoles,
      (ur.userId = u' ∧ (ur.organizationId = none ∨ ur.organizationId = o')) ∧ ¬ ur.Matches u x o ∧
        ∃ rp ∈ t.rolePermissions, rp.roleId = ur.roleId ∧ rp.permissionId = q.id := by
  simp only [Tables.Grants, hroles, h.rolePermissions, List.mem_filter, decide_eq_true_eq]
  constructor
  · intro hgrants
    obtain ⟨ur, ⟨hur, hm⟩, hvisible, hrest⟩ := hgrants
    exact ⟨ur, hur, hvisible, hm, hrest⟩
  · intro hgrants
    obtain ⟨ur, hur, hvisible, hm, hrest⟩ := hgrants
    exact ⟨ur, ⟨hur, hm⟩, hvisible, hrest⟩

namespace Administration

theorem filter_self {ur : UserRole} (ht : t.Schema) (hur : ur ∈ t.userRoles)
    (h : ur.Matches u x o) :
    t.userRoles.filter (· ≠ ur) = t.userRoles.filter fun ur => ¬ ur.Matches u x o := by
  refine List.filter_congr fun ur' hur' => ?_
  by_cases hm : ur'.Matches u x o
  · have heq := ht.row_unique (τ := .userRoles) (k := .assignment u x o) hur' hur
      (by simp [Table.keys, hm.1, hm.2.1, hm.2.2]) (by simp [Table.keys, h.1, h.2.1, h.2.2])
    simp [heq, h]
  · have hne : ur' ≠ ur := fun heq => hm (heq ▸ h)
    simp [hm, hne]

/-- Whatever its outcome is, a revocation leaves all but the assignment it looks for. -/
theorem revoked (ht : t.Schema) (h : Outcome t (.revokeRole u x o actor) out t') :
    t.SameGrants t' ∧ t'.userRoles = t.userRoles.filter fun ur => ¬ ur.Matches u x o := by
  cases h with
  | refused hv =>
      simp only [verdict] at hv
      split at hv <;> cases hv
  | kept hv =>
      simp only [verdict] at hv
      split at hv <;> cases hv
      rename_i hnone
      refine ⟨⟨rfl, rfl, rfl⟩, (List.filter_eq_self.mpr fun ur hur => ?_).symm⟩
      simpa using find?_matches.mp hnone ur hur
  | changed hc =>
      cases hc with
      | revokeRole hur hu hx ho => exact ⟨⟨rfl, rfl, rfl⟩, filter_self ht hur ⟨hu, hx, ho⟩⟩
  | unrecorded hc =>
      cases hc with
      | revokeRole hur hu hx ho => exact ⟨⟨rfl, rfl, rfl⟩, filter_self ht hur ⟨hu, hx, ho⟩⟩

/-- There is nothing left to revoke. -/
theorem revoked_again (hnone : ∀ ur ∈ t.userRoles, ¬ ur.Matches u x o)
    (h : Outcome t (.revokeRole u x o actor) out t') : out = .ok (.changed false) ∧ t' = t := by
  have hfind := find?_matches.mpr hnone
  cases h with
  | refused hv =>
      simp only [verdict, hfind] at hv
      cases hv
  | kept hv =>
      simp only [verdict, hfind] at hv
      cases hv
      exact ⟨rfl, rfl⟩
  | changed hc =>
      cases hc with
      | revokeRole hur hu hx ho => exact absurd ⟨hu, hx, ho⟩ (hnone _ hur)
  | unrecorded hc =>
      cases hc with
      | revokeRole hur hu hx ho => exact absurd ⟨hu, hx, ho⟩ (hnone _ hur)

theorem assigned (h : Outcome t (.assignRole u x o actor) (.ok .done) t') :
    t.SameGrants t' ∧ (∀ ur ∈ t.userRoles, ¬ ur.Matches u x o) ∧
      ∃ row : UserRole, row.Matches u x o ∧ t'.userRoles = t.userRoles ++ [row] := by
  cases h with
  | kept hv => exact absurd (key_of_kept hv) (by simp [key])
  | changed hc =>
      cases hc with
      | assignRole hrole hid hscope horg hfree huser =>
          refine ⟨⟨rfl, rfl, rfl⟩, fun ur hur hm => hfree ?_, _, ⟨rfl, rfl, rfl⟩, rfl⟩
          refine Tables.hasKey_iff.mpr ⟨.userRoles, ur, hur, ?_⟩
          simp [Table.keys, hm.1, hm.2.1, hm.2.2]

/-- A revocation of an assignment that is there says so, if its actor exists. -/
theorem revoked_found {ur : UserRole} (hur : ur ∈ t.userRoles) (hm : ur.Matches u x o)
    (hactor : t.hasKey (.primary .users actor)) (h : Outcome t (.revokeRole u x o actor) out t') :
    out = .ok (.changed true) := by
  cases h with
  | refused hv =>
      simp only [verdict] at hv
      split at hv <;> cases hv
  | kept hv =>
      simp only [verdict] at hv
      split at hv <;> cases hv
      rename_i hnone
      exact absurd hm (find?_matches.mp hnone ur hur)
  | changed hc => cases hc; rfl
  | unrecorded _ _ _ hmissing => exact absurd hactor hmissing

end Administration

/-- A revocation takes effect at once, on the decisions that rest on its assignment and on
no others; it is idempotent, and undoes an assignment. -/
theorem revocation_exact (h : p.Reachable) (u x : Uuid) (o : Option Uuid) :
    (∀ actor out p', Served (serve env) p (.revokeRole u x o actor) out p' →
      (∀ u' r a o' b b', p.Decides u' r a o' b → Calls.Decides p' u' r a o' b' → b ≠ b' →
        u' = u ∧ (o = none ∨ o' = o)) ∧
      (∀ r a o', Calls.Decides p' u r a o' true ↔
        p.tables.Active u ∧ ∃ ur ∈ p.tables.userRoles,
          (ur.userId = u ∧ (ur.organizationId = none ∨ ur.organizationId = o')) ∧
          ¬ (ur.roleId = x ∧ ur.organizationId = o) ∧
          ∃ rp ∈ p.tables.rolePermissions, rp.roleId = ur.roleId ∧
            ∃ q ∈ p.tables.permissions, rp.permissionId = q.id ∧ q.resource = r ∧ q.action = a) ∧
      ∀ actor' out' p'', Served (serve env) p' (.revokeRole u x o actor') out' p'' →
        out' = .ok (.changed false) ∧ Calls.tables p'' = Calls.tables p') ∧
    ∀ actor q, Served (serve env) p (.assignRole u x o actor) (.ok .done) q →
      ∀ actor' out q', Served (serve env) q (.revokeRole u x o actor') out q' →
        (Calls.tables q |>.hasKey (.primary .users actor') → out = .ok (.changed true)) ∧
        ∀ u' r a o' b, p.Decides u' r a o' b ↔ Calls.Decides q' u' r a o' b := by
  have hp := h.sound
  have ht := hp.inv.schema
  refine ⟨fun actor out p' hs => ?_, fun actor q hassign actor' out q' hrevoke => ?_⟩
  · have hp' := hp.reaches hs.reaches
    obtain ⟨hsame, hroles⟩ :=
      Administration.revoked ht (Administration.served (a := .revokeRole u x o actor) hp hs)
    refine ⟨fun u' r a o' b b' hb hb' hne => ?_, fun r a o' => ?_, fun actor' out' p'' hs' => ?_⟩
    · by_contra hother
      refine hne ?_
      rw [hp.decides_iff.mp hb, hp'.decides_iff.mp hb', decide_eq_decide]
      simp only [Tables.Allows, Tables.Active, hsame.users, hsame.permissions, hsame.grants hroles]
      refine and_congr_right fun _ => exists_congr fun q => and_congr_right fun _ => and_congr_right
        fun _ => ?_
      refine exists_congr fun ur => and_congr_right fun hur => and_congr_right fun hvisible => ?_
      refine (and_iff_right fun hm => hother ⟨hvisible.1.symm.trans hm.1, ?_⟩).symm
      refine hvisible.2.imp (fun hglobal => hm.2.2 ▸ hglobal) fun hscoped => ?_
      exact hscoped.symm.trans hm.2.2
    · rw [hp'.decides_iff, eq_comm, decide_eq_true_iff]
      simp only [Tables.Allows, Tables.Active, hsame.users, hsame.permissions, hsame.grants hroles]
      refine and_congr_right fun _ => ?_
      constructor
      · intro hallowed
        obtain ⟨q, hq, ⟨hr, ha⟩, ur, hur, hvisible, hm, rp, hrp, hrole, hperm⟩ := hallowed
        exact ⟨ur, hur, hvisible, fun hx => hm ⟨hvisible.1, hx⟩, rp, hrp, hrole, q, hq, hperm,
          hr, ha⟩
      · intro hallowed
        obtain ⟨ur, hur, hvisible, hx, rp, hrp, hrole, q, hq, hperm, hr, ha⟩ := hallowed
        exact ⟨q, hq, ⟨hr, ha⟩, ur, hur, hvisible, fun hm => hx hm.2, rp, hrp, hrole, hperm⟩
    · refine Administration.revoked_again (fun ur hur => ?_)
        (Administration.served (a := .revokeRole u x o actor') hp' hs')
      rw [hroles] at hur
      simpa using (List.mem_filter.mp hur).2
  · have hq := hp.reaches hassign.reaches
    have hq' := hq.reaches hrevoke.reaches
    obtain ⟨hsame, hfree, row, hrow, hadded⟩ :=
      Administration.assigned (Administration.served (a := .assignRole u x o actor) hp hassign)
    have hout := Administration.served (a := .revokeRole u x o actor') hq hrevoke
    obtain ⟨hsame', hroles⟩ := Administration.revoked hq.inv.schema hout
    refine ⟨fun hactor => ?_, fun u' r a o' b => ?_⟩
    · exact Administration.revoked_found
        (hadded ▸ List.mem_append_right _ (List.mem_singleton_self _)) hrow hactor hout
    · have hrestored : (Calls.tables q').userRoles = p.tables.userRoles := by
        rw [hroles, hadded, List.filter_append, List.filter_eq_self.mpr
          fun ur hur => by simpa using hfree ur hur]
        simp [hrow]
      have hsame'' : p.tables.SameGrants (Calls.tables q') :=
        ⟨hsame'.users.trans hsame.users, hsame'.permissions.trans hsame.permissions,
          hsame'.rolePermissions.trans hsame.rolePermissions⟩
      rw [hp.decides_iff, hq'.decides_iff, decide_eq_decide.mpr (hsame''.allows hrestored)]

/-- A user, and a role with a permission that nobody holds yet. -/
def granted : Calls plainEnvironment :=
  (Calls.fresh plainEnvironment onePermission).played (serve plainEnvironment)
    [.spawn (.register "a" "p"), .finish 0, .spawn (.createRole "reader" none none ⟨2⟩), .finish 1,
      .spawn (.assignPermissionToRole ⟨16⟩ ⟨11⟩ ⟨2⟩), .finish 2]

/-- The role is assigned and revoked: what the user may do in between is all that changes. -/
theorem revocation_exact_granted : ∃ q q' : Calls plainEnvironment, ∃ out,
    Served (serve plainEnvironment) granted (.assignRole ⟨2⟩ ⟨16⟩ none ⟨2⟩) (.ok .done) q ∧
    Served (serve plainEnvironment) q (.revokeRole ⟨2⟩ ⟨16⟩ none ⟨2⟩) out q' ∧
    q.Decides ⟨2⟩ "doc" "read" none true ∧ q'.Decides ⟨2⟩ "doc" "read" none false ∧
    (∀ u' r a o' b b', q.Decides u' r a o' b → q'.Decides u' r a o' b' → b ≠ b' → u' = ⟨2⟩) ∧
    ∀ u' r a o' b, granted.Decides u' r a o' b ↔ q'.Decides u' r a o' b := by
  have hgranted : granted.Reachable :=
    ⟨onePermission, onePermission_seeded, Pool.played_reaches _ _ _⟩
  have hserial : ∃ q' : Calls plainEnvironment, Serial (serve plainEnvironment) granted
      [(.assignRole ⟨2⟩ ⟨16⟩ none ⟨2⟩, .ok .done),
        (.revokeRole ⟨2⟩ ⟨16⟩ none ⟨2⟩, .ok (.changed true))] q' :=
    Serial.of_serveAll (by decide +kernel)
  have hallowed : ∃ q : Calls plainEnvironment, Served (serve plainEnvironment) granted
      (.assignRole ⟨2⟩ ⟨16⟩ none ⟨2⟩) (.ok .done) q ∧
      decide (q.world.shared.state.Allows ⟨2⟩ "doc" "read" none) = true :=
    Served.of_run_world (f := fun w : History plainEnvironment Request =>
      decide (w.shared.state.Allows ⟨2⟩ "doc" "read" none)) (by decide +kernel)
  obtain ⟨q', hserial⟩ := hserial
  obtain ⟨q, hassign, hallowed⟩ := hallowed
  cases hserial with
  | cons hassign' hrest =>
      cases hrest with
      | cons hrevoke hnil =>
          cases hnil
          obtain ⟨-, rfl⟩ := hassign.unique hassign'
          have hq : q.Reachable := ⟨onePermission, onePermission_seeded,
            (Pool.played_reaches _ _ _).trans hassign.reaches⟩
          have hrestored :=
            ((revocation_exact hgranted ⟨2⟩ ⟨16⟩ none).2 _ _ hassign _ _ _ hrevoke).2
          refine ⟨q, _, _, hassign, hrevoke, hq.sound.decides_iff.mpr hallowed.symm,
            (hrestored _ _ _ _ _).mp (hgranted.sound.decides_iff.mpr (by decide +kernel)),
            fun u' r a o' b b' hb hb' hne => ?_, hrestored⟩
          exact ((((revocation_exact hq ⟨2⟩ ⟨16⟩ none).1 _ _ _ hrevoke).1 u' r a o' b b' hb hb'
            hne)).1

end SecureIam
