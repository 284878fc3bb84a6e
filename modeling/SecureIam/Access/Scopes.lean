import SecureIam.Services.Runs
import SecureIam.Services.Statements
import SecureIam.Tokens.Reachable

/-!
Which roles may be held where. No constraint of the schema says it: it rests on the
role that `assign_role` reads, which stays as it was read until the assignment commits
and ever after.
-/
namespace SecureIam
open Lib Program

namespace Tables

/-- A role of an organization is held in that organization only. -/
def Scoped (t : Tables) : Prop :=
  ∀ ur ∈ t.userRoles, ∀ role ∈ t.roles, role.id = ur.roleId → role.organizationId ≠ none →
    ur.organizationId = role.organizationId

/-- The role of the assignment is known, and may be held there. -/
def Admits (t : Tables) (ur : UserRole) : Prop :=
  ∃ role ∈ t.roles, role.id = ur.roleId ∧
    (role.organizationId ≠ none → ur.organizationId = role.organizationId)

variable {t t' : Tables} {ur : UserRole}

theorem Admits.mono (h : t.Admits ur) (hroles : t.roles ⊆ t'.roles) : t'.Admits ur := by
  obtain ⟨role, hrole, hadmits⟩ := h
  exact ⟨role, hroles hrole, hadmits⟩

/-- An admission settles which organization it is, since role ids are unique. -/
theorem Admits.scoped (h : t.Admits ur) (ht : t.Schema) {role : Role} (hrole : role ∈ t.roles)
    (hid : role.id = ur.roleId) (horg : role.organizationId ≠ none) :
    ur.organizationId = role.organizationId := by
  obtain ⟨role', hrole', hid', hadmits⟩ := h
  have hkey : .primary .roles ur.roleId ∈ Table.roles.keys role := by simp [Table.keys, hid]
  have hkey' : .primary .roles ur.roleId ∈ Table.roles.keys role' := by simp [Table.keys, hid']
  obtain rfl := ht.row_unique (τ := .roles) hrole hrole' hkey hkey'
  exact hadmits horg

theorem Scoped.admits (h : t.Scoped) (ht : t.Schema) (hur : ur ∈ t.userRoles) : t.Admits ur := by
  have hfk : t.hasKey (.primary .roles ur.roleId) :=
    ht.references .userRoles ur hur _ (List.mem_cons_of_mem _ List.mem_cons_self)
  obtain ⟨role, hrole, hkey⟩ := List.any_eq_true.mp hfk
  have hkeys : .primary .roles ur.roleId ∈ Table.roles.keys role := of_decide_eq_true hkey
  have hid : role.id = ur.roleId := by
    simp only [Table.keys, List.mem_cons, LockKey.primary.injEq, true_and, reduceCtorEq,
      List.not_mem_nil, or_false] at hkeys
    exact hkeys.symm
  exact ⟨role, hrole, hid, h ur hur role hrole hid⟩

theorem scoped_of_admits (ht : t.Schema) (h : ∀ ur ∈ t.userRoles, t.Admits ur) : t.Scoped :=
  fun ur hur _ hrole hid horg => (h ur hur).scoped ht hrole hid horg

end Tables

namespace Write
variable {t : Tables} {ur : UserRole} {ws : List Write}

theorem roles_apply (w : Write) (t : Tables) : t.roles ⊆ (w.apply t).roles := by
  cases w with
  | insert τ r =>
      cases τ with
      | roles => exact List.subset_append_left _ _
      | _ => exact List.Subset.refl _
  | _ => exact List.Subset.refl _

theorem userRole_of_apply {w : Write} (h : ur ∈ (w.apply t).userRoles) :
    ur ∈ t.userRoles ∨ w = .insert .userRoles ur := by
  cases w with
  | insert τ r =>
      cases τ with
      | userRoles =>
          cases List.mem_append.mp h with
          | inl h => exact .inl h
          | inr h => exact .inr (by rw [List.mem_singleton.mp h])
      | _ => exact .inl h
  | deleteUserRole r => exact .inl (List.mem_filter.mp h).1
  | _ => exact .inl h

theorem roles_view (ws : List Write) (t : Tables) :
    t.roles ⊆ (Store.view (T := tableStore) ws t).roles := by
  induction ws generalizing t with
  | nil => exact List.Subset.refl _
  | cons w ws ih => exact List.Subset.trans (w.roles_apply t) (ih _)

theorem userRole_of_view (h : ur ∈ (Store.view (T := tableStore) ws t).userRoles) :
    ur ∈ t.userRoles ∨ .insert .userRoles ur ∈ ws := by
  induction ws generalizing t with
  | nil => exact .inl h
  | cons w ws ih =>
      cases ih h with
      | inr h => exact .inr (List.mem_cons_of_mem _ h)
      | inl h =>
          cases userRole_of_apply h with
          | inl h => exact .inl h
          | inr h => exact .inr (h ▸ List.mem_cons_self)

/-- A commit of admitted assignments keeps every role where it belongs. -/
theorem scoped_view (ht : t.Schema) (h : t.Scoped) (hvalid : schema.Valid ws t)
    (hws : ∀ ur, .insert .userRoles ur ∈ ws → t.Admits ur) :
    (Store.view (T := tableStore) ws t).Scoped := by
  have hschema : (Store.view (T := tableStore) ws t).Schema := hvalid.good ht
  refine Tables.scoped_of_admits hschema fun ur hur => ?_
  have hadmits : t.Admits ur := by
    cases userRole_of_view hur with
    | inl hur => exact h.admits ht hur
    | inr hur => exact hws ur hur
  exact hadmits.mono (roles_view ws t)

end Write

section Protocol
variable {ρ : Type} {env : Environment}

theorem Effect.roles {n i : Nat} {g g' : Database} {ws vs : List Write} {o : Stmt}
    (h : Effect env n i g ws o g' vs) : g.state.roles ⊆ g'.state.roles := by
  cases h with
  | read | rollback => exact List.Subset.refl _
  | write ho how hw => rw [Effect.state_write hw]; exact List.Subset.refl _
  | commit => exact Write.roles_view ws _

/-- What the other sessions leave to session `j`: roles among the rest. -/
structure RoleInterference (j : Nat) (w w' : History env ρ) : Prop where
  base : Interference j w w'
  roles : w.shared.state.roles ⊆ w'.shared.state.roles

def scopeProtocol (env : Environment) : Protocol (machine env) Request where
  inv w := Sound w ∧ w.shared.state.Scoped
  loc := InSession
  rely := RoleInterference
  guar _ _ _ _ _ := True
  rely_refl i w := ⟨.refl i w, List.Subset.refl _⟩
  rely_trans h h' := ⟨h.base.trans h'.base, List.Subset.trans h.roles h'.roles⟩
  loc_start hinv hnew := start_inSession hinv.1 hnew
  loc_rely hloc hrely := hloc.allowed hrely.base.allowed
  loc_exec hloc hexec := exec_inSession hloc hexec
  exec_rely hij _ hloc hexec _ _ := by
    refine ⟨exec_interference hij hloc hexec, ?_⟩
    obtain ⟨g, hg, rfl, -⟩ := World.exec_step hexec
    exact (exec_effect hg).roles

/-- The assignments that the statement may insert. -/
def Stmt.Assigns (may : UserRole → Prop) : Stmt → Prop
  | .insert .userRoles draft => ∀ u now, may (draft.row u now)
  | _ => True

theorem Stmt.Uses.assigns {τs : List Table} {as : List AuditAction} (hτ : .userRoles ∉ τs)
    (may : UserRole → Prop) {o : Stmt} (h : o.Uses τs as) : o.Assigns may := by
  cases o with
  | insert τ draft =>
      cases τ with
      | userRoles => exact absurd h hτ
      | _ => trivial
  | _ => trivial

theorem Stmt.Assigns.writes {may : UserRole → Prop} {o : Stmt} (h : o.Assigns may) {ur : UserRole}
    (hw : o.Writes (.insert .userRoles ur)) : may ur := by
  cases o with
  | insert τ draft =>
      obtain ⟨u, now, heq⟩ := hw
      obtain ⟨rfl, hrow⟩ := Write.insert.inj heq
      exact eq_of_heq hrow ▸ h u now
  | deleteRolePermission | deleteUserRole | deleteMembership =>
      obtain ⟨r, heq⟩ := hw
      cases heq
  | _ => cases hw

/-- All that the session has inserted or may still insert is admitted by committed roles. -/
def Admitted (may : UserRole → Prop) (ws : List Write) (t : Tables) : Prop :=
  ∀ ur, may ur ∨ .insert .userRoles ur ∈ ws → t.Admits ur

variable {may : UserRole → Prop} {i : Nat}

theorem Admitted.mono {ws : List Write} {t t' : Tables} (h : Admitted may ws t)
    (hroles : t.roles ⊆ t'.roles) : Admitted may ws t' :=
  fun ur hur => (h ur hur).mono hroles

/-- One statement keeps the scopes, and admits whatever it inserts. -/
theorem Effect.scopes {n : Nat} {o : Stmt} {g g' : Database} {ws vs : List Write}
    (h : Effect env n i g ws o g' vs) (ho : o.Assigns may) (hl : schema.Open i ws g)
    (hschema : g.state.Schema) (hscoped : g.state.Scoped) (hadmitted : Admitted may ws g.state) :
    g'.state.Scoped ∧ Admitted may vs g'.state := by
  cases h with
  | read => exact ⟨hscoped, hadmitted⟩
  | write ho' how hw =>
      rw [Effect.state_write hw]
      refine ⟨hscoped, fun ur hur => hadmitted ur ?_⟩
      cases hur with
      | inl hmay => exact .inl hmay
      | inr hur =>
          cases List.mem_append.mp hur with
          | inl hur => exact .inr hur
          | inr hur =>
              rw [← List.mem_singleton.mp hur] at how
              exact .inl (ho.writes how)
  | commit =>
      refine ⟨Write.scoped_view hschema hscoped hl.valid fun ur hur => hadmitted ur (.inr hur), ?_⟩
      intro ur hur
      have hmay : may ur := hur.resolve_right List.not_mem_nil
      exact (hadmitted ur (.inl hmay)).mono (Write.roles_view ws _)
  | rollback =>
      exact ⟨hscoped, fun ur hur => hadmitted ur (.inl (hur.resolve_right List.not_mem_nil))⟩

variable {req : Request} {l : Session} {w : History env Request} {α : Type}

/-- Nothing is left to insert, and nothing was inserted without its role. -/
abbrev Settles (_ : Except Error α) (l : Session) (w : History env Request) : Prop :=
  Admitted (fun _ => False) l.pending w.shared.state

/-- A program whose assignments are admitted keeps the scopes to its end. -/
theorem wp_admitted {p : App α} (may : UserRole → Prop) (hp : p.All (Stmt.Assigns may))
    (h : Admitted may l.pending w.shared.state) : (scopeProtocol env).wp i req Settles p l w := by
  have hwp : (scopeProtocol env).wp i req
      (fun _ l' w' => Admitted may l'.pending w'.shared.state) p l w := by
    refine (scopeProtocol env).wp_of_all hp (fun h hr => h.mono hr.roles) ?_ h
    intro o ho r l l' w w' hadmitted hinv hloc hexec
    have hsound := exec_sound hinv.1 hloc hexec
    obtain ⟨g, hg, hshared, -⟩ := World.exec_step hexec
    have hscopes := (exec_effect hg).scopes ho hloc hinv.1.schema hinv.2 hadmitted
    rw [← hshared] at hscopes
    exact ⟨⟨hsound, hscopes.1⟩, trivial, hscopes.2⟩
  exact hwp.mono fun _ l' w' _ _ hadmitted ur hur => hadmitted ur (.inr (hur.resolve_left id))

theorem admitted_none {p : App α} (τs : List Table) (as : List AuditAction) (hp : Uses τs as p)
    (hτ : .userRoles ∉ τs) (h : Settles (.ok ()) l w) :
    (scopeProtocol env).wp i req Settles p l w :=
  wp_admitted _ (hp.mono fun _ ho => ho.assigns hτ _) h

/-- The role that a session reads before it has written anything is a committed one. -/
theorem wp_getById {r : Uuid} {f : Option Role → App α} (hl : l.pending = [])
    (h : ∀ (role? : Option Role) l' w', l'.pending = [] →
      (∀ role, role? = some role → role ∈ w'.shared.state.roles ∧ role.id = r) →
      (scopeProtocol env).wp i req Settles (f role?) l' w') :
    (scopeProtocol env).wp i req Settles ((RoleRepository.getById r).bind f) l w := by
  intro w' hw rows w'' l' hexec
  have hsound := exec_sound hw.2.1.1 hw.2.2 hexec
  obtain ⟨g, hg, hshared, -⟩ := World.exec_step hexec
  simp only [exec, Option.some.injEq, Prod.mk.injEq] at hg
  obtain ⟨hrows, rfl, rfl⟩ := hg
  refine ⟨⟨hsound, hshared ▸ hw.2.1.2⟩, trivial, ?_⟩
  have hmem : ∀ role ∈ rows, role ∈ w''.shared.state.roles ∧ role.id = r := by
    intro role hrole
    rw [← hrows, Session.view_of_nil hl] at hrole
    have hfound : role ∈ w'.shared.state.roles ∧ role.id = r := by
      simpa [Session.object] using hrole
    exact hshared ▸ hfound
  change (scopeProtocol env).wp i req Settles ((App.scalarOneOrNone rows).bind f) _ w''
  clear hrows
  cases rows with
  | nil => exact h none _ _ hl fun _ hnone => by cases hnone
  | cons role rest =>
      cases rest with
      | nil =>
          refine h (some role) _ _ hl fun role' hrole => ?_
          obtain rfl := Option.some.inj hrole
          exact hmem role List.mem_cons_self
      | cons _ _ =>
          refine admitted_none [] [] trivial List.not_mem_nil fun ur hur => ?_
          simp [hl] at hur

theorem assign_assigns (u r : Uuid) (o : Option Uuid) :
    (UserRoleRepository.assign u r o).All
      (Stmt.Assigns fun ur => ur.roleId = r ∧ ur.organizationId = o) := by
  refine All.bind (All.handle ?_ fun e => ?_) fun userRole => ?_
  · refine All.bind (All.bind (all_issue fun _ _ => ⟨rfl, rfl⟩) fun row => ?_) fun _ => ?_
    · cases row <;> trivial
    · exact All.bind (all_issue (S := sql) (o := .commit) trivial) fun _ => trivial
  · split
    · exact All.bind (all_issue (S := sql) (o := .rollback) trivial) fun _ => trivial
    · trivial
  · refine All.bind (all_issue (S := sql) (o := .refresh .userRoles userRole.id) trivial)
      fun row => ?_
    cases row <;> trivial

open AuthorizationService in
theorem assignRole_settles (u r : Uuid) (o : Option Uuid) (actor : Uuid) (hl : l.pending = []) :
    (scopeProtocol env).wp i req Settles (assignRole u r o actor) l w := by
  refine wp_getById hl fun role? l' w' hl' hrole => ?_
  have hnone : Settles (.ok ()) l' w' := fun ur hur => by simp [hl'] at hur
  cases role? with
  | none => exact admitted_none [] [] trivial List.not_mem_nil hnone
  | some role =>
      obtain ⟨hmem, hid⟩ := hrole role rfl
      by_cases hmismatch : role.organizationId ≠ none ∧ role.organizationId ≠ o
      · refine admitted_none [] [] ?_ List.not_mem_nil hnone
        simp only [if_pos hmismatch]
        trivial
      · refine wp_admitted (fun ur => ur.roleId = r ∧ ur.organizationId = o) ?_ fun ur hur => ?_
        · simp only [if_neg hmismatch]
          have hmember : Uses [] [] (requireMember u o) := requireMember_uses u o
          have hrecord : Uses [] [.roleAssigned]
              (AuditLogRepository.record (roleEvent .roleAssigned u r o actor)) :=
            uses_record List.mem_cons_self
          refine All.bind (hmember.mono fun _ ho => ho.assigns List.not_mem_nil _) fun _ => ?_
          refine All.bind (All.handle (assign_assigns u r o) fun e => ?_) fun _ => ?_
          · split <;> trivial
          · exact (hrecord.mono fun _ ho => ho.assigns List.not_mem_nil _).bind fun _ => trivial
        · have hassigned : ur.roleId = r ∧ ur.organizationId = o := by simpa [hl'] using hur
          obtain ⟨rfl, rfl⟩ := hassigned
          refine ⟨role, hmem, hid, fun horg => ?_⟩
          exact (not_not.mp fun hne => hmismatch ⟨horg, hne⟩).symm

open AuthorizationService in
theorem revokeRole_assigns (u r : Uuid) (o : Option Uuid) (actor : Uuid) :
    (call env (.revokeRole u r o actor)).All (Stmt.Assigns may) := by
  have hrecord : Uses [] [.roleRevoked]
      (AuditLogRepository.record (roleEvent .roleRevoked u r o actor)) :=
    uses_record List.mem_cons_self
  have hfound (rows : List UserRole) : Uses [] [] (App.scalarOneOrNone rows) :=
    uses_scalarOneOrNone rows
  refine All.bind (All.bind (All.bind ?_ fun rows => ?_) fun revoked => ?_) fun _ => trivial
  · exact all_issue (S := sql) (o := .select .userRoles _) trivial
  · refine All.bind ((hfound rows).mono fun _ ho => ho.assigns List.not_mem_nil _) fun found => ?_
    cases found with
    | none => trivial
    | some userRole =>
        refine All.bind (all_issue (S := sql) (o := .deleteUserRole userRole.id) trivial)
          fun _ => ?_
        exact All.bind (all_issue (S := sql) (o := .commit) trivial) fun _ => trivial
  · cases revoked with
    | false => trivial
    | true => exact (hrecord.mono fun _ ho => ho.assigns List.not_mem_nil _).bind fun _ => trivial

/-- Every call keeps the scopes: all but `assign_role` insert no assignment at all. -/
theorem serve_scopes (env : Environment) :
    (scopeProtocol env).Serves (fun _ _ _ _ _ => True) (serve env) := by
  intro req i w hinv hnew
  have hstart : Settles (.ok ()) {} w :=
    fun ur hur => hur.elim False.elim fun h => nomatch h
  have hcall : (scopeProtocol env).wp i req Settles (call env req) (machine env).start w := by
    by_cases hτ : .userRoles ∈ req.tables
    · cases req with
      | assignRole u r o actor =>
          refine Protocol.wp_bind ((assignRole_settles u r o actor rfl).mono
            fun out l' w' _ _ h => ?_)
          cases out with
          | ok _ => exact admitted_none [] [] trivial List.not_mem_nil h
          | error e => exact h
      | revokeRole u r o actor => exact wp_admitted _ (revokeRole_assigns u r o actor) hstart
      | _ => simp [Request.tables] at hτ
    · exact admitted_none _ _ (call_uses req) hτ hstart
  refine Protocol.wp_ensure (hcall.mono fun out l' w' _ _ h => ?_) fun _ _ _ => trivial
  have hrollback : Uses [] [] App.rollback := uses_issue (o := .rollback) trivial
  refine (admitted_none _ _ hrollback List.not_mem_nil h).mono fun stop _ _ _ _ _ => ?_
  cases stop <;> trivial

end Protocol

section Runs
variable {env : Environment} {p : Calls env} {t : Tables}

/-- From any tables that keep the scopes, whatever the calls and their order. -/
theorem scoped_of_reaches (ht : t.Ready env) (hs : t.Scoped)
    (hr : Reaches (serve env) (Calls.fresh env t) p) : p.tables.Scoped := by
  have hsound := (Calls.sound_fresh ht).inv
  have hkept : (scopeProtocol env).Kept (fun _ _ _ _ _ => True) (Calls.fresh env t) :=
    Protocol.kept_start ⟨hsound, hs⟩ rfl
  exact (hkept.reaches (serve_scopes env) hr).inv.2

theorem Calls.Reachable.scoped (h : p.Reachable) : p.tables.Scoped := by
  obtain ⟨t, ht, hr⟩ := h
  refine scoped_of_reaches ht.ready (fun ur hur => ?_) hr
  rw [ht.userRoles] at hur
  cases hur

/-- A role of an organization is never held globally, nor in another organization. -/
theorem organization_role_held_there (h : p.Reachable) :
    ∀ ur ∈ p.tables.userRoles, ∀ role ∈ p.tables.roles, role.id = ur.roleId →
      role.organizationId ≠ none → ur.organizationId = role.organizationId :=
  h.scoped

/-- A member of an organization that holds its role there; the role was refused globally. -/
def withMember : Calls plainEnvironment :=
  Calls.after plainEnvironment
    [.spawn (.register "a" "p"), .finish 0, .spawn (.createOrganization "org" ⟨2⟩), .finish 1,
      .spawn (.createRole "member" none (some ⟨16⟩) ⟨2⟩), .finish 2,
      .spawn (.addMember ⟨2⟩ ⟨16⟩ ⟨2⟩), .finish 3,
      .spawn (.assignRole ⟨2⟩ ⟨32⟩ none ⟨2⟩), .spawn (.assignRole ⟨2⟩ ⟨32⟩ (some ⟨16⟩) ⟨2⟩),
      .finish 4, .finish 5]

theorem withMember_reachable : withMember.Reachable := Calls.reachable_after _ _

theorem organization_role_held_there_withMember :
    withMember.tables.userRoles.map (fun ur => (ur.roleId, ur.organizationId)) =
      [(⟨32⟩, some ⟨16⟩)] ∧
    ∀ ur ∈ withMember.tables.userRoles, ∀ role ∈ withMember.tables.roles, role.id = ur.roleId →
      role.organizationId ≠ none → ur.organizationId = role.organizationId :=
  ⟨by decide +kernel, organization_role_held_there withMember_reachable⟩

/-- One permission, seeded by a migration. -/
def onePermission : Tables where
  permissions := [⟨⟨11⟩, "doc", "read", none⟩]

theorem onePermission_seeded : onePermission.Seeded plainEnvironment := by
  refine ⟨⟨fun τ => ?_, fun τ => ?_⟩, fun m τ => ?_, rfl, rfl, rfl, rfl, rfl, rfl⟩
  · cases τ <;> decide
  · cases τ <;> decide
  · cases τ <;> simp [onePermission, Tables.hasKey, Tables.rows, LockKey.table, Table.keys,
      plainEnvironment]
    omega

/-- A member of an organization who holds its role there, and the permission with it. -/
def heldThere : Calls plainEnvironment :=
  (Calls.fresh plainEnvironment onePermission).played (serve plainEnvironment)
    [.spawn (.register "a" "p"), .finish 0, .spawn (.createOrganization "org" ⟨2⟩), .finish 1,
      .spawn (.createRole "member" none (some ⟨16⟩) ⟨2⟩), .finish 2,
      .spawn (.assignPermissionToRole ⟨32⟩ ⟨11⟩ ⟨2⟩), .finish 3,
      .spawn (.addMember ⟨2⟩ ⟨16⟩ ⟨2⟩), .finish 4,
      .spawn (.assignRole ⟨2⟩ ⟨32⟩ (some ⟨16⟩) ⟨2⟩), .finish 5]

end Runs

end SecureIam
