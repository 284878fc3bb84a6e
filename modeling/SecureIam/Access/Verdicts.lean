import SecureIam.Repositories.Solo
import SecureIam.Services.Requests

/-!
What the eight calls that change roles, assignments, organizations and memberships
are for: on given tables each is refused, keeps them, or makes one row change and
records one event of it. Run alone, the services do just that.
-/
namespace SecureIam
open Lib App
open AuthorizationService OrganizationService

inductive Administration where
  | createRole (name : String) (description : Option String) (organizationId : Option Uuid)
      (actorUserId : Uuid)
  | assignRole (userId roleId : Uuid) (organizationId : Option Uuid) (actorUserId : Uuid)
  | revokeRole (userId roleId : Uuid) (organizationId : Option Uuid) (actorUserId : Uuid)
  | assignPermissionToRole (roleId permissionId actorUserId : Uuid)
  | removePermissionFromRole (roleId permissionId actorUserId : Uuid)
  | createOrganization (name : String) (actorUserId : Uuid)
  | addMember (userId organizationId actorUserId : Uuid)
  | removeMember (userId organizationId actorUserId : Uuid)
deriving DecidableEq, Repr

namespace Administration

def request : Administration → Request
  | createRole n d o actor => .createRole n d o actor
  | assignRole u r o actor => .assignRole u r o actor
  | revokeRole u r o actor => .revokeRole u r o actor
  | assignPermissionToRole r p actor => .assignPermissionToRole r p actor
  | removePermissionFromRole r p actor => .removePermissionFromRole r p actor
  | createOrganization n actor => .createOrganization n actor
  | addMember u o actor => .addMember u o actor
  | removeMember u o actor => .removeMember u o actor

def actor : Administration → Uuid
  | createRole _ _ _ actor | assignRole _ _ _ actor | revokeRole _ _ _ actor
  | assignPermissionToRole _ _ actor | removePermissionFromRole _ _ actor
  | createOrganization _ actor | addMember _ _ actor | removeMember _ _ actor => actor

end Administration

inductive Verdict where
  | refuse (e : Error)
  | keep (r : Response)
  | change (w : Write) (event : AuditRecord) (r : Response)

/-- Why an organization that is named cannot be used. -/
def Tables.organizationError (t : Tables) : Option Uuid → Option Error
  | none => none
  | some o => if t.hasKey (.primary .organizations o) then none else some (organizationNotFound o)

/-- Why a user cannot hold a role under an organization. -/
def Tables.memberError (t : Tables) (userId : Uuid) : Option Uuid → Option Error
  | none => none
  | some o =>
      (t.organizationError (some o)).or
        (if t.hasKey (.membershipOf userId o) then none else some
          (userNotOrganizationMember userId o))

/-- `id` and `now` are the key and the time that a new row gets. -/
def Administration.verdict (t : Tables) (id : Uuid) (now : Time) : Administration → Verdict
  | createRole n d o actor =>
      match t.organizationError o with
      | some e => .refuse e
      | none =>
          if t.hasKey (.roleName n) then .refuse
            (.roleNameAlreadyExists s!"Role name already exists: {n}")
          else .change (.insert .roles ⟨id, n, d, false, o⟩)
            { action := .roleCreated
              actorUserId := some actor
              targetType := some .role
              targetId := some id
              organizationId := o
              eventMetadata := some [("name", .str n)] }
            (.role ⟨id, n, d, false, o⟩)
  | assignRole u r o actor =>
      match t.roles.find? (·.id = r) with
      | none => .refuse (roleNotFound r)
      | some role =>
          if role.organizationId ≠ none ∧ role.organizationId ≠ o then
            .refuse (roleOrganizationMismatch r role.organizationId o)
          else
            match t.memberError u o with
            | some e => .refuse e
            | none =>
                if t.hasKey (.assignment u r o) ∨ ¬ t.hasKey (.primary .users u) then
                  .refuse (.roleAlreadyAssigned
                    s!"User {u} already has role {r} (organization_id={strOptional o})")
                else .change (.insert .userRoles ⟨id, u, r, o⟩)
                  (roleEvent .roleAssigned u r o actor) .done
  | revokeRole u r o actor =>
      match t.userRoles.find? fun ur => ur.userId = u ∧ ur.roleId = r ∧ ur.organizationId = o with
      | none => .keep (.changed false)
      | some ur => .change (.deleteUserRole ur) (roleEvent .roleRevoked u r o actor) (.changed true)
  | assignPermissionToRole r p actor =>
      match t.roles.find? (·.id = r) with
      | none => .refuse (roleNotFound r)
      | some role =>
          if ¬ t.hasKey (.primary .permissions p) then
            .refuse (.permissionNotFound s!"Permission not found: {p}")
          else if t.hasKey (.rolePermission r p) then
            .refuse (.permissionAlreadyAssigned s!"Role {r} already has permission {p}")
          else .change (.insert .rolePermissions ⟨r, p⟩)
            (permissionEvent .permissionAssignedToRole r p role.organizationId actor) .done
  | removePermissionFromRole r p actor =>
      match t.roles.find? (·.id = r) with
      | none => .refuse (roleNotFound r)
      | some role =>
          match t.rolePermissions.find? fun rp => rp.roleId = r ∧ rp.permissionId = p with
          | none => .keep (.changed false)
          | some rp => .change (.deleteRolePermission rp)
              (permissionEvent .permissionRemovedFromRole r p role.organizationId actor)
              (.changed true)
  | createOrganization n actor =>
      if t.hasKey (.organizationName n) then
        .refuse (.organizationNameAlreadyExists s!"Organization name already exists: {n}")
      else .change (.insert .organizations ⟨id, n, now⟩)
        { action := .organizationCreated
          actorUserId := some actor
          targetType := some .organization
          targetId := some id
          organizationId := some id
          eventMetadata := some [("name", .str n)] }
        (.organization ⟨id, n, now⟩)
  | addMember u o actor =>
      if ¬ t.hasKey (.primary .users u) then .refuse (.userNotFound s!"User not found: {u}")
      else
        match t.organizationError (some o) with
        | some e => .refuse e
        | none =>
            if t.hasKey (.membershipOf u o) then .refuse (.organizationMembershipAlreadyExists
              s!"User {u} is already a member of organization {o}")
            else .change (.insert .memberships ⟨id, u, o, now⟩)
              (memberEvent .organizationMemberAdded u o actor) .done
  | removeMember u o actor =>
      match t.memberships.find? fun m => m.userId = u ∧ m.organizationId = o with
      | none => .keep (.changed false)
      | some m => .change (.deleteMembership m) (memberEvent .organizationMemberRemoved u o actor)
          (.changed true)

/-- Where a verdict leads a call that starts on the tables `t`. The change is committed
before its event is, and stays even if the event cannot be recorded. -/
def Verdict.Leads (env : Environment) (t : Tables) (before : List Tables) :
    Verdict → Except Error Response → Solo → Prop
  | refuse e, out, s => out = .error e ∧ s.Settled env t before
  | keep r, out, s =>
      out = .ok r ∧ ∃ again, (∀ t' ∈ again, t' = t) ∧ s.Settled env t (again ++ before)
  | change w event r, out, s =>
      w.Ok t ∧
      if ∀ k ∈ event.references, (w.apply t).hasKey k then
        out = .ok r ∧ ∃ id now, s.Settled env
          ((w.apply t).insert .auditLogs ((AuditLogRepository.draft event).row id now))
          (w.apply t :: t :: before)
      else out = .error .integrityError ∧ s.Settled env (w.apply t) (t :: before)

section Pieces
variable {env : Environment} {α : Type} {s s' : Solo} {t : Tables} {before : List Tables}

theorem Solo.Settled.rollback (h : s.Settled env t before) :
    ∃ s', Ends env App.rollback s (.ok ()) s' ∧ s'.Settled env t before :=
  ⟨⟨s.step + 1, none, s.before, s.committed, s.committed⟩, rfl,
    h.of_eq (h.committed.trans h.view.symm) rfl rfl s.step.le_succ⟩

theorem Verdict.Leads.rollback {v : Verdict} {out : Except Error Response}
    (h : v.Leads env t before out s) :
    ∃ s', Ends env App.rollback s (.ok ()) s' ∧ v.Leads env t before out s' := by
  cases v with
  | refuse e =>
      obtain ⟨hout, hs⟩ := h
      obtain ⟨s', hends, hs'⟩ := hs.rollback
      exact ⟨s', hends, hout, hs'⟩
  | keep r =>
      obtain ⟨hout, again, hagain, hs⟩ := h
      obtain ⟨s', hends, hs'⟩ := hs.rollback
      exact ⟨s', hends, hout, again, hagain, hs'⟩
  | change w event r =>
      obtain ⟨hok, h⟩ := h
      simp only [Verdict.Leads]
      split at h
      · obtain ⟨hout, id, now, hs⟩ := h
        obtain ⟨s', hends, hs'⟩ := hs.rollback
        refine ⟨s', hends, hok, ?_⟩
        rw [if_pos ‹_›]
        exact ⟨hout, id, now, hs'⟩
      · obtain ⟨hout, hs⟩ := h
        obtain ⟨s', hends, hs'⟩ := hs.rollback
        refine ⟨s', hends, hok, ?_⟩
        rw [if_neg ‹_›]
        exact ⟨hout, hs'⟩

/-- The event of a change that is committed, and the return. -/
theorem ends_recorded {w : Write} (event : AuditRecord) {β : Type} (b : β) (f : β → Response)
    (hok : w.Ok t) (h : s.Settled env (w.apply t) (t :: before)) :
    ∃ out s', Ends env (do
        let _ ← AuditLogRepository.record event
        return b) s out s' ∧
      (Verdict.change w event (f b)).Leads env t before (out.map f) s' := by
  by_cases href : ∀ k ∈ event.references, (w.apply t).hasKey k
  · obtain ⟨s', hends, hs'⟩ := ends_record h href
    refine ⟨.ok b, s', hends.bind rfl, hok, ?_⟩
    rw [if_pos href]
    exact ⟨rfl, _, _, hs'⟩
  · refine ⟨.error .integrityError, s.touch, (ends_record_error h href).raise, hok, ?_⟩
    rw [if_neg href]
    exact ⟨rfl, h.touch⟩

theorem find?_isSome {τ : Table} {p : τ.Row → Bool} {k : LockKey} (hk : k.table = τ)
    (hp : ∀ r, p r = true ↔ k ∈ τ.keys r) : ((t.rows τ).find? p).isSome = t.hasKey k := by
  subst hk
  rw [Bool.eq_iff_iff, List.find?_isSome]
  simp [Tables.hasKey, hp]

/-- A lookup by a key ends with the row that has the key. -/
theorem ends_find {τ : Table} {p : τ.Row → Bool} {k : LockKey} (h : s.Settled env t before)
    (hk : k.table = τ) (hp : ∀ r, p r = true ↔ k ∈ τ.keys r) :
    Ends env (do scalarOneOrNone (← select τ fun t => (t.rows τ).filter p)) s
      (.ok ((t.rows τ).find? p)) s.touch ∧ ((t.rows τ).find? p).isSome = t.hasKey k :=
  ⟨h.view ▸ ends_lookup h.good.schema fun r => (hp r).mp, find?_isSome hk hp⟩

theorem ends_getUser (h : s.Settled env t before) (u : Uuid) :
    Ends env (UserRepository.getById u) s (.ok (t.users.find? (·.id = u))) s.touch ∧
      (t.users.find? (·.id = u)).isSome = t.hasKey (.primary .users u) :=
  ends_find (τ := .users) h rfl fun r => by simp [Table.keys, @eq_comm _ u]

theorem ends_getRole (h : s.Settled env t before) (r : Uuid) :
    Ends env (RoleRepository.getById r) s (.ok (t.roles.find? (·.id = r))) s.touch ∧
      (t.roles.find? (·.id = r)).isSome = t.hasKey (.primary .roles r) :=
  ends_find (τ := .roles) h rfl fun x => by simp [Table.keys, @eq_comm _ r]

theorem ends_getPermission (h : s.Settled env t before) (id : Uuid) :
    Ends env (PermissionRepository.getById id) s (.ok (t.permissions.find? (·.id = id))) s.touch ∧
      (t.permissions.find? (·.id = id)).isSome = t.hasKey (.primary .permissions id) :=
  ends_find (τ := .permissions) h rfl fun x => by simp [Table.keys, @eq_comm _ id]

theorem ends_getOrganization (h : s.Settled env t before) (o : Uuid) :
    Ends env (OrganizationRepository.getById o) s (.ok (t.organizations.find? (·.id = o))) s.touch ∧
      (t.organizations.find? (·.id = o)).isSome = t.hasKey (.primary .organizations o) :=
  ends_find (τ := .organizations) h rfl fun x => by simp [Table.keys, @eq_comm _ o]

theorem ends_isMember (h : s.Settled env t before) (u o : Uuid) :
    Ends env (OrganizationMembershipRepository.isMember u o) s (.ok (t.hasKey (.membershipOf u o)))
      s.touch := by
  obtain ⟨hends, hkey⟩ := ends_find (τ := .memberships) (k := .membershipOf u o)
    (p := fun m => m.userId = u ∧ m.organizationId = o) h rfl
    fun m => by simp [Table.keys, @eq_comm _ u, @eq_comm _ o]
  rw [← hkey]
  exact hends.map Option.isSome

theorem ends_requireOrganization (h : s.Settled env t before) (o : Option Uuid) :
    ∃ s', Ends env (requireOrganization o) s
        (match t.organizationError o with
          | none => .ok ()
          | some e => .error e) s' ∧ s'.Settled env t before := by
  cases o with
  | none => exact ⟨s, rfl, h⟩
  | some o =>
      obtain ⟨hends, hkey⟩ := ends_getOrganization h o
      refine ⟨s.touch, hends.bind ?_, h.touch⟩
      simp only [Tables.organizationError, ← hkey]
      cases t.organizations.find? (·.id = o) <;> rfl

theorem ends_requireMember (h : s.Settled env t before) (u : Uuid) (o : Option Uuid) :
    ∃ s', Ends env (requireMember u o) s
        (match t.memberError u o with
          | none => .ok ()
          | some e => .error e) s' ∧ s'.Settled env t before := by
  cases o with
  | none => exact ⟨s, rfl, h⟩
  | some o =>
      obtain ⟨s', hends, hs'⟩ := ends_requireOrganization h (some o)
      simp only [Tables.memberError]
      cases horg : t.organizationError (some o) with
      | some e =>
          rw [horg] at hends
          exact ⟨s', hends.raise, hs'⟩
      | none =>
          rw [horg] at hends
          refine ⟨s'.touch, hends.bind ((ends_isMember hs' u o).bind ?_), hs'.touch⟩
          cases t.hasKey (.membershipOf u o) <;> rfl

end Pieces

section Calls
variable {env : Environment} {s : Solo} {t : Tables} {before : List Tables}

/-- Run on the tables `t`, the program does what the verdict says, of a key that is new. -/
def Follows (env : Environment) (t : Tables) (before : List Tables) (v : Uuid → Time → Verdict)
    {α : Type} (f : α → Response) (p : App α) (s : Solo) : Prop :=
  ∃ id now out s', (∀ τ, ¬ t.hasKey (.primary τ id)) ∧ Ends env p s out s' ∧
    (v id now).Leads env t before (out.map f) s'

theorem Follows.refuse {v : Uuid → Time → Verdict} {α : Type} {f : α → Response} {p : App α}
    {s s' : Solo} {e : Error} (h : s.Settled env t before) (hv : ∀ id now, v id now = .refuse e)
    (hends : Ends env p s (.error e) s') (hs' : s'.Settled env t before) :
    Follows env t before v f p s := by
  refine ⟨env.uuid s.step, 0, .error e, s', h.undrawn, hends, ?_⟩
  rw [hv]
  exact ⟨rfl, hs'⟩

theorem organizationError_eq_none {o : Option Uuid} : t.organizationError o = none ↔
    ∀ k ∈ o.toList.map (LockKey.primary .organizations), t.hasKey k := by
  cases o with
  | none => simp [Tables.organizationError]
  | some o => simp [Tables.organizationError]

/-- A new row is accepted if its other keys are free and what it refers to exists. -/
theorem Solo.Settled.ok_insert {τ : Table} (draft : τ.Draft) (h : s.Settled env t before)
    (hkeys : ∀ k ∈ τ.keys (draft.soloRow env s), (∃ id, k = .primary τ id) ∨ ¬ t.hasKey k)
    (hrefs : ∀ k ∈ τ.references (draft.soloRow env s), t.hasKey k) :
    (Write.insert τ (draft.soloRow env s)).Ok t := by
  refine ⟨fun k hk => ?_, hrefs⟩
  cases hkeys k hk with
  | inr hfree => exact hfree
  | inl hprimary =>
      obtain ⟨id, rfl⟩ := hprimary
      rw [draft.soloRow_drawn env s hk]
      exact h.undrawn τ

theorem createRole_follows (h : s.Settled env t before) (n : String) (d : Option String)
    (o : Option Uuid) (actor : Uuid) :
    Follows env t before (fun id now => (Administration.createRole n d o actor).verdict t id now)
      Response.role (createRole n d o actor) s := by
  obtain ⟨s₁, horg, hs₁⟩ := ends_requireOrganization h o
  cases hmissing : t.organizationError o with
  | some e =>
      rw [hmissing] at horg
      exact .refuse h (fun id now => by simp only [Administration.verdict, hmissing]) horg.raise hs₁
  | none =>
      rw [hmissing] at horg
      by_cases hname : t.hasKey (.roleName n)
      · obtain ⟨s₂, hfail, hs₂⟩ := ends_insertOne_error (RoleRepository.draft n d o)
          (q := RoleRepository.createRole n d o) hs₁ rfl fun hok =>
            hok.adds (.roleName n) (List.mem_cons_of_mem _ List.mem_cons_self) hname
        refine .refuse h (fun id now => ?_) (horg.bind (hfail.handled rfl).raise) hs₂
        simp only [Administration.verdict, hmissing, hname, if_true]
      · have hok := hs₁.ok_insert (RoleRepository.draft n d o)
          (by simp [Table.keys, RoleRepository.draft, Table.Draft.soloRow, hname])
          (organizationError_eq_none.mp hmissing)
        obtain ⟨s₂, hcreate, hs₂⟩ := ends_insertOne (RoleRepository.draft n d o)
          (q := RoleRepository.createRole n d o) hs₁ rfl hok List.mem_cons_self
        obtain ⟨out, s₃, hrecord, hleads⟩ := ends_recorded _ _ Response.role hok hs₂
        refine ⟨env.uuid s₁.step, s₁.now env, out, s₃, hs₁.undrawn,
          horg.bind (hcreate.handle.bind hrecord), ?_⟩
        simp only [Administration.verdict, hmissing, hname]
        exact hleads

theorem memberError_organization {u : Uuid} {o : Option Uuid} (h : t.memberError u o = none) :
    t.organizationError o = none := by
  cases o with
  | none => rfl
  | some o => exact (Option.or_eq_none_iff.mp h).1

theorem assignRole_follows (h : s.Settled env t before) (u r : Uuid) (o : Option Uuid)
    (actor : Uuid) :
    Follows env t before (fun id now => (Administration.assignRole u r o actor).verdict t id now)
      (fun _ => .done) (assignRole u r o actor) s := by
  obtain ⟨hlookup, hrole⟩ := ends_getRole h r
  cases hfind : t.roles.find? (·.id = r) with
  | none =>
      rw [hfind] at hlookup
      exact .refuse h (fun id now => by simp only [Administration.verdict, hfind])
        (hlookup.bind rfl) h.touch
  | some role =>
      rw [hfind] at hlookup hrole
      by_cases hmismatch : role.organizationId ≠ none ∧ role.organizationId ≠ o
      · refine .refuse (e := roleOrganizationMismatch r role.organizationId o) h (fun id now => ?_)
          (hlookup.bind ?_) h.touch
        · simp only [Administration.verdict, hfind, if_pos hmismatch]
        · simp only [if_pos hmismatch]
          rfl
      · obtain ⟨s₁, hmember, hs₁⟩ := ends_requireMember h.touch u o
        cases hbarred : t.memberError u o with
        | some e =>
            rw [hbarred] at hmember
            refine .refuse (e := e) h (fun id now => ?_) (hlookup.bind ?_) hs₁
            · simp only [Administration.verdict, hfind, if_neg hmismatch, hbarred]
            · simp only [if_neg hmismatch]
              exact hmember.raise
        | none =>
            rw [hbarred] at hmember
            by_cases hfree : t.hasKey (.assignment u r o) ∨ ¬ t.hasKey (.primary .users u)
            · obtain ⟨s₂, hfail, hs₂⟩ := ends_insertOne_error (UserRoleRepository.draft u r o)
                (q := UserRoleRepository.assign u r o) hs₁ rfl fun hok => by
                  cases hfree with
                  | inl hkey => exact hok.adds _ (List.mem_cons_of_mem _ List.mem_cons_self) hkey
                  | inr huser => exact huser (hok.requires _ List.mem_cons_self)
              refine .refuse (e := .roleAlreadyAssigned
                s!"User {u} already has role {r} (organization_id={strOptional o})") h
                (fun id now => ?_) (hlookup.bind ?_) hs₂
              · simp only [Administration.verdict, hfind, if_neg hmismatch, hbarred, if_pos hfree]
              · simp only [if_neg hmismatch]
                exact hmember.bind (hfail.handled rfl).raise
            · have hboth := not_or.mp hfree
              have hok := hs₁.ok_insert (UserRoleRepository.draft u r o)
                (by simp [Table.keys, UserRoleRepository.draft, Table.Draft.soloRow, hboth.1])
                (by
                  have horg := organizationError_eq_none.mp (memberError_organization hbarred)
                  simpa [Table.references, UserRoleRepository.draft, Table.Draft.soloRow, ← hrole]
                    using ⟨not_not.mp hboth.2, by simpa using horg⟩)
              obtain ⟨s₂, hassign, hs₂⟩ := ends_insertOne (UserRoleRepository.draft u r o)
                (q := UserRoleRepository.assign u r o) hs₁ rfl hok List.mem_cons_self
              obtain ⟨out, s₃, hrecord, hleads⟩ :=
                ends_recorded (roleEvent .roleAssigned u r o actor) () (fun _ => .done) hok hs₂
              refine ⟨env.uuid s₁.step, s₁.now env, out, s₃, hs₁.undrawn, hlookup.bind ?_, ?_⟩
              · simp only [if_neg hmismatch]
                exact hmember.bind (hassign.handle.bind hrecord)
              · simp only [Administration.verdict, hfind, if_neg hmismatch, hbarred, if_neg hfree]
                exact hleads

/-- A DELETE that finds its row, and its commit. -/
theorem ends_delete_commit {o : Stmt} {w : Write} {r : o.Res} (h : s.Settled env t before)
    (hexec : Solo.exec env o s = some (r, s.write w)) (hadds : w.adds = [])
    (hreq : w.requires = []) :
    w.Ok t ∧ Ends env (App.issue o) s (.ok r) (s.write w) ∧
      ∃ s', Ends env commit (s.write w) (.ok ()) s' ∧ s'.Settled env (w.apply t) (t :: before) := by
  have hok : w.Ok t := ⟨fun k hk => by simp [hadds] at hk, fun k hk => by simp [hreq] at hk⟩
  exact ⟨hok, Program.eval_issue hexec, ends_write_commit h hok
    fun σ id hid => by simp [hadds] at hid⟩

/-- A row is found again by its primary key. -/
theorem find?_of_key {τ : Table} {p : τ.Row → Bool} {k : LockKey} {r : τ.Row} (ht : t.Schema)
    (hr : r ∈ t.rows τ) (hp : ∀ r, p r = true → k ∈ τ.keys r) (hpr : p r = true) :
    (t.rows τ).find? p = some r := by
  cases hfind : (t.rows τ).find? p with
  | none => exact absurd hpr (by simpa using List.find?_eq_none.mp hfind r hr)
  | some x =>
      have hx := List.mem_of_find?_eq_some hfind
      rw [ht.row_unique hx hr (hp x (List.find?_some hfind)) (hp r hpr)]

/-- What a removal that found nothing, or one row, leaves. -/
theorem Follows.keep {v : Uuid → Time → Verdict} {α : Type} {f : α → Response} {p : App α}
    {s s' : Solo} {a : α} (again : List Tables) (h : s.Settled env t before)
    (hv : ∀ id now, v id now = .keep (f a)) (hends : Ends env p s (.ok a) s')
    (hagain : ∀ t' ∈ again, t' = t) (hs' : s'.Settled env t (again ++ before)) :
    Follows env t before v f p s := by
  refine ⟨env.uuid s.step, 0, .ok a, s', h.undrawn, hends, ?_⟩
  rw [hv]
  exact ⟨rfl, again, hagain, hs'⟩

theorem revokeRole_follows (h : s.Settled env t before) (u r : Uuid) (o : Option Uuid)
    (actor : Uuid) :
    Follows env t before (fun id now => (Administration.revokeRole u r o actor).verdict t id now)
      Response.changed (revokeRole u r o actor) s := by
  have hlookup := (ends_find (τ := .userRoles) (k := .assignment u r o)
    (p := fun ur => ur.userId = u ∧ ur.roleId = r ∧ ur.organizationId = o) h rfl
    fun m => by simp [Table.keys, @eq_comm _ u, @eq_comm _ r, @eq_comm _ o]).1
  cases hfind : t.userRoles.find? fun ur => ur.userId = u ∧ ur.roleId = r ∧
      ur.organizationId = o with
  | none =>
      rw [show (t.rows .userRoles).find? _ = none from hfind] at hlookup
      have hrevoke : Ends env (UserRoleRepository.revoke u r o) s (.ok false) s.touch :=
        (hlookup.bind rfl).assoc
      exact .keep [] h (fun id now => by simp only [Administration.verdict, hfind])
        (hrevoke.bind rfl) (by simp) h.touch
  | some ur =>
      rw [show (t.rows .userRoles).find? _ = some ur from hfind] at hlookup
      have hur : ur ∈ t.rows .userRoles := List.mem_of_find?_eq_some hfind
      have hexec : Solo.exec env (.deleteUserRole ur.id) s.touch =
          some (1, s.touch.write (.deleteUserRole ur)) := by
        have hagain := find?_of_key (τ := .userRoles) (k := .primary .userRoles ur.id)
          (p := (·.id = ur.id)) h.schema hur (by simp +contextual [Table.keys]) (by simp)
        simp only [Solo.exec, Solo.touch_view, h.view, show t.userRoles.find? _ = _ from hagain]
        rfl
      obtain ⟨hok, hdelete, s₁, hcommit, hs₁⟩ := ends_delete_commit h.touch hexec rfl rfl
      have hrevoke : Ends env (UserRoleRepository.revoke u r o) s (.ok true) s₁ :=
        (hlookup.bind (hdelete.bind (hcommit.bind rfl))).assoc
      obtain ⟨out, s₂, hrecord, hleads⟩ := ends_recorded (roleEvent .roleRevoked u r o actor) true
        Response.changed hok hs₁
      refine ⟨env.uuid s.step, 0, out, s₂, h.undrawn, hrevoke.bind hrecord, ?_⟩
      simp only [Administration.verdict, hfind]
      exact hleads

theorem removeMember_follows (h : s.Settled env t before) (u o actor : Uuid) :
    Follows env t before (fun id now => (Administration.removeMember u o actor).verdict t id now)
      Response.changed (removeMember u o actor) s := by
  have hlookup := (ends_find (τ := .memberships) (k := .membershipOf u o)
    (p := fun m => m.userId = u ∧ m.organizationId = o) h rfl
    fun m => by simp [Table.keys, @eq_comm _ u, @eq_comm _ o]).1
  cases hfind : t.memberships.find? fun m => m.userId = u ∧ m.organizationId = o with
  | none =>
      rw [show (t.rows .memberships).find? _ = none from hfind] at hlookup
      have hremove : Ends env (OrganizationMembershipRepository.removeMember u o) s (.ok false)
        s.touch :=
        (hlookup.bind rfl).assoc
      exact .keep [] h (fun id now => by simp only [Administration.verdict, hfind])
        (hremove.bind rfl) (by simp) h.touch
  | some m =>
      rw [show (t.rows .memberships).find? _ = some m from hfind] at hlookup
      have hm : m ∈ t.rows .memberships := List.mem_of_find?_eq_some hfind
      have hexec : Solo.exec env (.deleteMembership m.id) s.touch =
          some (1, s.touch.write (.deleteMembership m)) := by
        have hagain := find?_of_key (τ := .memberships) (k := .primary .memberships m.id)
          (p := (·.id = m.id)) h.schema hm (by simp +contextual [Table.keys]) (by simp)
        simp only [Solo.exec, Solo.touch_view, h.view, show t.memberships.find? _ = _ from hagain]
        rfl
      obtain ⟨hok, hdelete, s₁, hcommit, hs₁⟩ := ends_delete_commit h.touch hexec rfl rfl
      have hremove : Ends env (OrganizationMembershipRepository.removeMember u o) s (.ok true) s₁ :=
        (hlookup.bind (hdelete.bind (hcommit.bind rfl))).assoc
      obtain ⟨out, s₂, hrecord, hleads⟩ :=
        ends_recorded (memberEvent .organizationMemberRemoved u o actor)
        true Response.changed hok hs₁
      refine ⟨env.uuid s.step, 0, out, s₂, h.undrawn, hremove.bind hrecord, ?_⟩
      simp only [Administration.verdict, hfind]
      exact hleads

theorem removePermissionFromRole_follows (h : s.Settled env t before) (r p actor : Uuid) :
    Follows env t before
      (fun id now => (Administration.removePermissionFromRole r p actor).verdict t id now)
      Response.changed (removePermissionFromRole r p actor) s := by
  have hlookup := (ends_getRole h r).1
  cases hfind : t.roles.find? (·.id = r) with
  | none =>
      rw [hfind] at hlookup
      exact .refuse h (fun id now => by simp only [Administration.verdict, hfind])
        (hlookup.bind rfl) h.touch
  | some role =>
      rw [hfind] at hlookup
      cases hrow : t.rolePermissions.find? fun rp => rp.roleId = r ∧ rp.permissionId = p with
      | none =>
          have hdelete : Ends env (App.issue (.deleteRolePermission r p)) s.touch (.ok 0)
              s.touch.touch := by
            refine Program.eval_issue ?_
            simp only [Solo.exec, Solo.touch_view, h.view, hrow]
            rfl
          obtain ⟨s₁, hcommit, hs₁⟩ := ends_idle_commit h.touch.touch
          have hremove : Ends env (RoleRepository.removePermission r p) s.touch (.ok false) s₁ :=
            hdelete.bind (hcommit.bind rfl)
          exact .keep [t] h (fun id now => by simp only [Administration.verdict, hfind, hrow])
            (hlookup.bind (hremove.bind rfl)) (by simp) hs₁
      | some rp =>
          have hexec : Solo.exec env (.deleteRolePermission r p) s.touch =
              some (1, s.touch.write (.deleteRolePermission rp)) := by
            simp only [Solo.exec, Solo.touch_view, h.view, hrow]
            rfl
          obtain ⟨hok, hdelete, s₁, hcommit, hs₁⟩ := ends_delete_commit h.touch hexec rfl rfl
          have hremove : Ends env (RoleRepository.removePermission r p) s.touch (.ok true) s₁ :=
            hdelete.bind (hcommit.bind rfl)
          obtain ⟨out, s₂, hrecord, hleads⟩ := ends_recorded
            (permissionEvent .permissionRemovedFromRole r p role.organizationId actor) true
            Response.changed hok hs₁
          refine ⟨env.uuid s.step, 0, out, s₂, h.undrawn, hlookup.bind (hremove.bind hrecord), ?_⟩
          simp only [Administration.verdict, hfind, hrow]
          exact hleads

theorem assignPermissionToRole_follows (h : s.Settled env t before) (r p actor : Uuid) :
    Follows env t before
      (fun id now => (Administration.assignPermissionToRole r p actor).verdict t id now)
      (fun _ => .done) (assignPermissionToRole r p actor) s := by
  obtain ⟨hlookup, hrole⟩ := ends_getRole h r
  cases hfind : t.roles.find? (·.id = r) with
  | none =>
      rw [hfind] at hlookup
      exact .refuse h (fun id now => by simp only [Administration.verdict, hfind])
        (hlookup.bind rfl) h.touch
  | some role =>
      rw [hfind] at hlookup hrole
      obtain ⟨hpermission, hkey⟩ := ends_getPermission h.touch p
      cases hp : t.permissions.find? (·.id = p) with
      | none =>
          rw [hp] at hpermission hkey
          have hmissing : ¬ t.hasKey (.primary .permissions p) := by simp [← hkey]
          refine .refuse h (fun id now => ?_) (hlookup.bind (hpermission.bind rfl)) h.touch.touch
          simp only [Administration.verdict, hfind, if_pos hmissing]
      | some permission =>
          rw [hp] at hpermission hkey
          have hexists : t.hasKey (.primary .permissions p) := by simp [← hkey]
          by_cases hlinked : t.hasKey (.rolePermission r p)
          · have hok : ¬ (Write.insert .rolePermissions
              ((RoleRepository.permissionDraft r p).soloRow env
                s.touch.touch)).Ok t := fun hok =>
              hok.adds (.rolePermission r p) List.mem_cons_self hlinked
            obtain ⟨s₁, hfail, hs₁⟩ := ends_exceptIntegrityError
              (e := .duplicateRolePermission s!"Role {r} already has permission {p}") h.touch.touch
              (p := (do
                let _ ← App.insert .rolePermissions (RoleRepository.permissionDraft r p)
                commit)) (ends_insert_error (h.touch.touch.view.symm ▸ hok)).raise
            have hadd : Ends env (RoleRepository.addPermission r p) s.touch.touch (.error
              (.duplicateRolePermission s!"Role {r} already has permission {p}")) s₁ := hfail
            refine .refuse h (fun id now => ?_)
              (hlookup.bind (hpermission.bind (hadd.handled rfl).raise)) hs₁
            simp only [Administration.verdict, hfind, hexists, hlinked]
            rfl
          · have hok := h.touch.touch.ok_insert (RoleRepository.permissionDraft r p)
              (by simp [Table.keys, RoleRepository.permissionDraft, Table.Draft.soloRow, hlinked])
              (by simp [Table.references, RoleRepository.permissionDraft, Table.Draft.soloRow,
                hexists, ← hrole])
            obtain ⟨s₁, hcommit, hs₁⟩ := ends_write_commit h.touch.touch hok fun σ id hid =>
              (RoleRepository.permissionDraft r p).soloRow_drawn env _ hid
            have hinsert := ends_insert (h.touch.touch.view.symm ▸ hok)
            have hadd : Ends env (RoleRepository.addPermission r p) s.touch.touch (.ok ()) s₁ :=
              (hinsert.bind hcommit).handle
            obtain ⟨out, s₂, hrecord, hleads⟩ := ends_recorded
              (permissionEvent .permissionAssignedToRole r p role.organizationId actor) ()
              (fun _ => .done) hok hs₁
            refine ⟨env.uuid s.step, 0, out, s₂, h.undrawn,
              hlookup.bind (hpermission.bind (hadd.handle.bind hrecord)), ?_⟩
            simp only [Administration.verdict, hfind, hexists, hlinked]
            exact hleads

theorem createOrganization_follows (h : s.Settled env t before) (n : String) (actor : Uuid) :
    Follows env t before (fun id now => (Administration.createOrganization n actor).verdict t
      id now)
      Response.organization (createOrganization n actor) s := by
  by_cases hname : t.hasKey (.organizationName n)
  · obtain ⟨s₁, hfail, hs₁⟩ := ends_insertOne_error (OrganizationRepository.draft n)
      (q := OrganizationRepository.createOrganization n) h rfl fun hok =>
        hok.adds (.organizationName n) (List.mem_cons_of_mem _ List.mem_cons_self) hname
    refine .refuse h (fun id now => ?_) (hfail.handled rfl).raise hs₁
    simp only [Administration.verdict, hname, if_true]
  · have hok := h.ok_insert (OrganizationRepository.draft n)
      (by simp [Table.keys, OrganizationRepository.draft, Table.Draft.soloRow, hname])
      (fun k hk => absurd hk List.not_mem_nil)
    obtain ⟨s₁, hcreate, hs₁⟩ := ends_insertOne (OrganizationRepository.draft n)
      (q := OrganizationRepository.createOrganization n) h rfl hok List.mem_cons_self
    obtain ⟨out, s₂, hrecord, hleads⟩ := ends_recorded _ _ Response.organization hok hs₁
    refine ⟨env.uuid s.step, s.now env, out, s₂, h.undrawn, hcreate.handle.bind hrecord, ?_⟩
    simp only [Administration.verdict, hname]
    exact hleads

theorem addMember_follows (h : s.Settled env t before) (u o actor : Uuid) :
    Follows env t before (fun id now => (Administration.addMember u o actor).verdict t id now)
      (fun _ => .done) (addMember u o actor) s := by
  obtain ⟨hlookup, hkey⟩ := ends_getUser h u
  cases hfind : t.users.find? (·.id = u) with
  | none =>
      rw [hfind] at hlookup hkey
      have hmissing : ¬ t.hasKey (.primary .users u) := by simp [← hkey]
      refine .refuse h (fun id now => ?_) (hlookup.bind rfl) h.touch
      simp only [Administration.verdict, if_pos hmissing]
  | some user =>
      rw [hfind] at hlookup hkey
      have huser : t.hasKey (.primary .users u) := by simp [← hkey]
      obtain ⟨s₁, horg, hs₁⟩ := ends_requireOrganization h.touch (some o)
      cases hmissing : t.organizationError (some o) with
      | some e =>
          rw [hmissing] at horg
          refine .refuse h (fun id now => ?_) (hlookup.bind horg.raise) hs₁
          simp only [Administration.verdict, huser, hmissing]
          rfl
      | none =>
          rw [hmissing] at horg
          have hrefs := organizationError_eq_none.mp hmissing
          by_cases hmember : t.hasKey (.membershipOf u o)
          · obtain ⟨s₂, hfail, hs₂⟩ :=
              ends_insertOne_error (OrganizationMembershipRepository.draft u o)
              (q := OrganizationMembershipRepository.addMember u o) hs₁ rfl fun hok =>
                hok.adds (.membershipOf u o) (List.mem_cons_of_mem _ List.mem_cons_self) hmember
            refine .refuse h (fun id now => ?_)
              (hlookup.bind (horg.bind (hfail.handled rfl).raise)) hs₂
            simp only [Administration.verdict, huser, hmissing, hmember, if_true]
            rfl
          · have hok := hs₁.ok_insert (OrganizationMembershipRepository.draft u o)
              (by simp [Table.keys, OrganizationMembershipRepository.draft, Table.Draft.soloRow,
                hmember]) (by
                simpa [Table.references, OrganizationMembershipRepository.draft,
                  Table.Draft.soloRow] using ⟨huser, by simpa using hrefs⟩)
            obtain ⟨s₂, hadd, hs₂⟩ := ends_insertOne (OrganizationMembershipRepository.draft u o)
              (q := OrganizationMembershipRepository.addMember u o) hs₁ rfl hok List.mem_cons_self
            obtain ⟨out, s₃, hrecord, hleads⟩ := ends_recorded
              (memberEvent .organizationMemberAdded u o actor) () (fun _ => .done) hok hs₂
            refine ⟨env.uuid s₁.step, s₁.now env, out, s₃, hs₁.undrawn,
              hlookup.bind (horg.bind (hadd.handle.bind hrecord)), ?_⟩
            simp only [Administration.verdict, huser, hmissing, hmember]
            exact hleads

/-- Served alone, each of the eight calls does what its verdict says. -/
theorem Administration.ends (a : Administration) (h : s.Settled env t before) :
    ∃ id now out s', (∀ τ, ¬ t.hasKey (.primary τ id)) ∧ Ends env (serve env a.request) s out s' ∧
      (a.verdict t id now).Leads env t before out s' := by
  have served : ∀ {α : Type} {p : App α} {f : α → Response}, call env a.request = f <$> p →
      Follows env t before (a.verdict t) f p s → ∃ id now out s',
      (∀ τ, ¬ t.hasKey (.primary τ id)) ∧
        Ends env (serve env a.request) s out s' ∧ (a.verdict t id now).Leads env t before out
        s' := by
    intro α p f hcall hfollows
    obtain ⟨id, now, out, s₁, hid, hends, hleads⟩ := hfollows
    obtain ⟨s₂, hrollback, hleads⟩ := hleads.rollback
    have hmap : Ends env (call env a.request) s (out.map f) s₁ := hcall ▸ hends.map f
    exact ⟨id, now, _, s₂, hid, Program.eval_ensure hmap hrollback, hleads⟩
  cases a with
  | createRole n d o actor => exact served rfl (createRole_follows h n d o actor)
  | assignRole u r o actor => exact served rfl (assignRole_follows h u r o actor)
  | revokeRole u r o actor => exact served rfl (revokeRole_follows h u r o actor)
  | assignPermissionToRole r p actor =>
      exact served rfl (assignPermissionToRole_follows h r p actor)
  | removePermissionFromRole r p actor =>
      exact served rfl (removePermissionFromRole_follows h r p actor)
  | createOrganization n actor => exact served rfl (createOrganization_follows h n actor)
  | addMember u o actor => exact served rfl (addMember_follows h u o actor)
  | removeMember u o actor => exact served rfl (removeMember_follows h u o actor)

end Calls

end SecureIam
