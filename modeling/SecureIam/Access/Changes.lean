import SecureIam.Access.Verdicts
import SecureIam.Services.Runs

/-!
The changes that the eight calls can make, each with the checks that it has passed, and
what a served call leaves of the tables.
-/
namespace SecureIam
open Lib
open AuthorizationService OrganizationService
variable {env : Environment} {t t' : Tables} {id : Uuid} {now : Time} {a : Administration}
    {w : Write}
  {event : AuditRecord} {r : Response}

namespace Administration

/-- A change, its event and the response, and why the call was not refused. -/
inductive Changes (t : Tables) (id : Uuid) (now : Time) :
    Administration → Write → AuditRecord → Response → Prop
  | createRole {n : String} {d : Option String} {o : Option Uuid} {actor : Uuid}
      (hname : ¬ t.hasKey (.roleName n))
      (horg : ∀ org ∈ o, t.hasKey (.primary .organizations org)) :
      Changes t id now (createRole n d o actor) (.insert .roles ⟨id, n, d, false, o⟩)
        ⟨.roleCreated, some actor, some .role, some id, o, some [("name", .str n)]⟩
        (.role ⟨id, n, d, false, o⟩)
  | assignRole {u x : Uuid} {o : Option Uuid} {actor : Uuid} {role : Role} (hrole : role ∈ t.roles)
      (hid : role.id = x) (hscope : role.organizationId = none ∨ role.organizationId = o)
      (horg : ∀ org ∈ o, t.hasKey (.primary .organizations org) ∧ t.hasKey (.membershipOf u org))
      (hfree : ¬ t.hasKey (.assignment u x o)) (huser : t.hasKey (.primary .users u)) :
      Changes t id now (assignRole u x o actor) (.insert .userRoles ⟨id, u, x, o⟩)
        (roleEvent .roleAssigned u x o actor) .done
  | revokeRole {u x : Uuid} {o : Option Uuid} {actor : Uuid} {ur : UserRole}
      (hur : ur ∈ t.userRoles) (hu : ur.userId = u) (hx : ur.roleId = x)
      (ho : ur.organizationId = o) :
      Changes t id now (revokeRole u x o actor) (.deleteUserRole ur)
        (roleEvent .roleRevoked u x o actor) (.changed true)
  | assignPermissionToRole {x p actor : Uuid} {role : Role} (hrole : role ∈ t.roles)
      (hid : role.id = x) (hpermission : t.hasKey (.primary .permissions p))
      (hfree : ¬ t.hasKey (.rolePermission x p)) :
      Changes t id now (assignPermissionToRole x p actor) (.insert .rolePermissions ⟨x, p⟩)
        (permissionEvent .permissionAssignedToRole x p role.organizationId actor) .done
  | removePermissionFromRole {x p actor : Uuid} {role : Role} {rp : RolePermission}
      (hrole : role ∈ t.roles) (hid : role.id = x) (hrp : rp ∈ t.rolePermissions)
      (hx : rp.roleId = x) (hp : rp.permissionId = p) :
      Changes t id now (removePermissionFromRole x p actor) (.deleteRolePermission rp)
        (permissionEvent .permissionRemovedFromRole x p role.organizationId actor) (.changed true)
  | createOrganization {n : String} {actor : Uuid} (hname : ¬ t.hasKey (.organizationName n)) :
      Changes t id now (createOrganization n actor) (.insert .organizations ⟨id, n, now⟩)
        ⟨.organizationCreated, some actor, some .organization, some id, some id,
          some [("name", .str n)]⟩ (.organization ⟨id, n, now⟩)
  | addMember {u o actor : Uuid} (huser : t.hasKey (.primary .users u))
      (horg : t.hasKey (.primary .organizations o)) (hfree : ¬ t.hasKey (.membershipOf u o)) :
      Changes t id now (addMember u o actor) (.insert .memberships ⟨id, u, o, now⟩)
        (memberEvent .organizationMemberAdded u o actor) .done
  | removeMember {u o actor : Uuid} {m : OrganizationMembership} (hm : m ∈ t.memberships)
      (hu : m.userId = u) (ho : m.organizationId = o) :
      Changes t id now (removeMember u o actor) (.deleteMembership m)
        (memberEvent .organizationMemberRemoved u o actor) (.changed true)

theorem organization_of_none {o : Option Uuid} (h : t.organizationError o = none) :
    ∀ org ∈ o, t.hasKey (.primary .organizations org) := by
  intro org horg
  obtain rfl := Option.mem_def.mp horg
  simpa [Tables.organizationError] using h

theorem member_of_none {u : Uuid} {o : Option Uuid} (h : t.memberError u o = none) :
    ∀ org ∈ o, t.hasKey (.primary .organizations org) ∧ t.hasKey (.membershipOf u org) := by
  intro org horg
  refine ⟨organization_of_none (memberError_organization h) org horg, ?_⟩
  obtain rfl := Option.mem_def.mp horg
  simpa using (Option.or_eq_none_iff.mp h).2

theorem changes_of_verdict (h : a.verdict t id now = .change w event r) :
    Changes t id now a w event r := by
  cases a with
  | createRole n d o actor =>
      simp only [verdict] at h
      split at h
      · cases h
      · rename_i horg
        split at h <;> cases h
        exact .createRole ‹_› (organization_of_none horg)
  | assignRole u x o actor =>
      simp only [verdict] at h
      split at h
      · cases h
      · rename_i role hfind
        split at h
        · cases h
        · rename_i hmismatch
          split at h
          · cases h
          · rename_i hmember
            split at h <;> cases h
            rename_i hfree
            refine .assignRole (List.mem_of_find?_eq_some hfind)
              (by simpa using List.find?_some hfind) ?_
              (member_of_none hmember) (not_or.mp hfree).1 (not_not.mp (not_or.mp hfree).2)
            by_cases hnone : role.organizationId = none
            · exact .inl hnone
            · exact .inr (not_not.mp fun hne => hmismatch ⟨hnone, hne⟩)
  | revokeRole u x o actor =>
      simp only [verdict] at h
      split at h <;> cases h
      rename_i ur hfind
      have hur := List.find?_some hfind
      simp only [decide_eq_true_eq] at hur
      exact .revokeRole (List.mem_of_find?_eq_some hfind) hur.1 hur.2.1 hur.2.2
  | assignPermissionToRole x p actor =>
      simp only [verdict] at h
      split at h
      · cases h
      · rename_i role hfind
        split at h
        · cases h
        · rename_i hpermission
          split at h <;> cases h
          exact .assignPermissionToRole (List.mem_of_find?_eq_some hfind)
            (by simpa using List.find?_some hfind) (not_not.mp hpermission) ‹_›
  | removePermissionFromRole x p actor =>
      simp only [verdict] at h
      split at h
      · cases h
      · rename_i role hfind
        split at h <;> cases h
        rename_i rp hrow
        have hrp := List.find?_some hrow
        simp only [decide_eq_true_eq] at hrp
        exact .removePermissionFromRole (List.mem_of_find?_eq_some hfind)
          (by simpa using List.find?_some hfind) (List.mem_of_find?_eq_some hrow) hrp.1 hrp.2
  | createOrganization n actor =>
      simp only [verdict] at h
      split at h <;> cases h
      exact .createOrganization ‹_›
  | addMember u o actor =>
      simp only [verdict] at h
      split at h
      · cases h
      · rename_i huser
        split at h
        · cases h
        · rename_i horg
          split at h <;> cases h
          exact .addMember (not_not.mp huser) (organization_of_none horg o rfl) ‹_›
  | removeMember u o actor =>
      simp only [verdict] at h
      split at h <;> cases h
      rename_i m hfind
      have hm := List.find?_some hfind
      simp only [decide_eq_true_eq] at hm
      exact .removeMember (List.mem_of_find?_eq_some hfind) hm.1 hm.2

/-- The event can be recorded if and only if its actor exists. -/
theorem Changes.event_valid_iff (h : Changes t id now a w event r) (ht : t.Schema) :
    (∀ k ∈ event.references, (w.apply t).hasKey k) ↔ t.hasKey (.primary .users a.actor) := by
  have lasts : ∀ k : LockKey, ¬ k.table.Link → t.hasKey k → (w.apply t).hasKey k :=
    fun k hk hkey => Write.hasKey_apply w hk hkey
  have hunlinked : ∀ o, ¬ (LockKey.primary .organizations o).table.Link :=
    fun _ => LockKey.not_link (by decide)
  have hkept : t.hasKey (.primary .users a.actor) → (w.apply t).hasKey (.primary .users a.actor) :=
    lasts _ (LockKey.not_link (by decide))
  have hback : (w.apply t).hasKey (.primary .users a.actor) →
      t.hasKey (.primary .users a.actor) := by
    intro hkey
    cases Write.hasKey_of_apply hkey with
    | inl hkey => exact hkey
    | inr hadd => cases h <;> simp [Write.adds, Table.keys] at hadd
  have organization : event.actorUserId = some a.actor →
      (∀ org, event.organizationId = some org → (w.apply t).hasKey (.primary .organizations org)) →
      ((∀ k ∈ event.references, (w.apply t).hasKey k) ↔ t.hasKey (.primary .users a.actor)) := by
    intro hactor horg
    have hrefs : ∀ k, k ∈ event.references ↔ k = .primary .users a.actor ∨
        ∃ org, event.organizationId = some org ∧ k = .primary .organizations org := by
      intro k
      simp [AuditRecord.references, hactor, @eq_comm _ k]
    constructor
    · intro hall
      exact hback (hall _ ((hrefs _).mpr (.inl rfl)))
    · intro hkey k hk
      cases (hrefs k).mp hk with
      | inl hk => exact hk ▸ hkept hkey
      | inr hk =>
          obtain ⟨org, hmem, rfl⟩ := hk
          exact horg org hmem
  cases h with
  | createRole hname horg =>
      exact organization rfl fun org ho => lasts _ (hunlinked _) (horg org ho)
  | assignRole hrole hid hscope horg hfree huser =>
      exact organization rfl fun org ho => lasts _ (hunlinked _) (horg org ho).1
  | revokeRole hur hu hx ho =>
      refine organization rfl fun org horg =>
        lasts _ (hunlinked _) (ht.references .userRoles _ hur _ ?_)
      simp [Table.references, ho.trans horg]
  | assignPermissionToRole hrole hid hpermission hfree =>
      refine organization rfl fun org horg =>
        lasts _ (hunlinked _) (ht.references .roles _ hrole _ ?_)
      exact List.mem_map_of_mem (Option.mem_toList.mpr horg)
  | removePermissionFromRole hrole hid hrp hx hp =>
      refine organization rfl fun org horg =>
        lasts _ (hunlinked _) (ht.references .roles _ hrole _ ?_)
      exact List.mem_map_of_mem (Option.mem_toList.mpr horg)
  | @createOrganization n actor hname =>
      refine organization rfl fun org horg => ?_
      obtain rfl := Option.some.inj horg
      refine Tables.hasKey_iff.mpr ⟨.organizations, ⟨id, n, now⟩, ?_, List.mem_cons_self⟩
      rw [Write.apply, Tables.rows_insert_self]
      exact List.mem_append_right _ (List.mem_singleton_self _)
  | addMember huser horg hfree =>
      refine organization rfl fun org ho => lasts _ (hunlinked _) ?_
      exact Option.some.inj ho ▸ horg
  | removeMember hm hu ho =>
      refine organization rfl fun org horg =>
        lasts _ (hunlinked _) (ht.references .memberships _ hm _ ?_)
      obtain rfl := Option.some.inj horg
      simp [Table.references, ho]

/-- What a served call returns, and the tables it leaves. Only a change whose event has no
existing actor ends in an error and stays. -/
inductive Outcome (t : Tables) (a : Administration) : Except Error Response → Tables → Prop
  | refused {id : Uuid} {now : Time} {e : Error} (h : a.verdict t id now = .refuse e) :
      Outcome t a (.error e) t
  | kept {id : Uuid} {now : Time} {r : Response} (h : a.verdict t id now = .keep r) :
      Outcome t a (.ok r) t
  | changed {id : Uuid} {now : Time} {w : Write} {event : AuditRecord} {r : Response}
      (h : Changes t id now a w event r) (hid : ∀ τ, ¬ t.hasKey (.primary τ id)) (hok : w.Ok t)
      (hactor : t.hasKey (.primary .users a.actor)) (eventId : Uuid) (eventTime : Time) :
      Outcome t a (.ok r)
        ((w.apply t).insert .auditLogs ((AuditLogRepository.draft event).row eventId eventTime))
  | unrecorded {id : Uuid} {now : Time} {w : Write} {event : AuditRecord} {r : Response}
      (h : Changes t id now a w event r) (hid : ∀ τ, ¬ t.hasKey (.primary τ id)) (hok : w.Ok t)
      (hactor : ¬ t.hasKey (.primary .users a.actor)) :
      Outcome t a (.error .integrityError) (w.apply t)

theorem outcome_of_leads {before : List Tables} {out : Except Error Response} {s : Solo}
    (ht : t.Schema) (hid : ∀ τ, ¬ t.hasKey (.primary τ id))
    (h : (a.verdict t id now).Leads env t before out s) : Outcome t a out s.committed := by
  cases hv : a.verdict t id now with
  | refuse e =>
      rw [hv] at h
      obtain ⟨rfl, hs⟩ := h
      rw [hs.committed]
      exact .refused hv
  | keep r =>
      rw [hv] at h
      obtain ⟨rfl, again, -, hs⟩ := h
      rw [hs.committed]
      exact .kept hv
  | change w event r =>
      rw [hv] at h
      have hchanges := changes_of_verdict hv
      have hvalid := hchanges.event_valid_iff ht
      obtain ⟨hok, h⟩ := h
      split at h
      · obtain ⟨rfl, eventId, eventTime, hs⟩ := h
        rw [hs.committed]
        exact .changed hchanges hid hok (hvalid.mp ‹_›) eventId eventTime
      · rename_i hinvalid
        obtain ⟨rfl, hs⟩ := h
        rw [hs.committed]
        exact .unrecorded hchanges hid hok fun hactor => hinvalid (hvalid.mpr hactor)

/-- Served alone, a call has the outcome that the tables before it determine. -/
theorem served {p p' : Calls env} {out : Except Error Response} (hp : p.Sound)
    (hs : Served (serve env) p a.request out p') : Outcome p.tables a out p'.tables := by
  obtain ⟨id, now, out', s, hid, hends, hleads⟩ := a.ends hp.settled
  obtain ⟨rfl, htables⟩ := hp.served hends hs
  rw [htables]
  exact outcome_of_leads hp.inv.schema hid hleads

end Administration

end SecureIam
