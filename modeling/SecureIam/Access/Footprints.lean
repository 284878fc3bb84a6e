import SecureIam.Access.Revocation
import SecureIam.Accounts.Audited
import SecureIam.Repositories.Ledger

/-!
The row changes that each of the eight calls can make, and the events that it can record:
exactly those that its arguments name, whoever calls it and whatever goes on meanwhile.
-/
namespace SecureIam
open Lib App Program
variable {env : Environment} {t₀ : Tables} {α β : Type} {N : Write → Prop}

/-- The program writes nothing but `N`, whoever runs it. -/
def Confined (env : Environment) (t₀ : Tables) (N : Write → Prop) (p : App α) : Prop :=
  ∀ (ρ : Type) (L : Licence env ρ) {i : Nat} {req : ρ} {es : List (Entry (machine env) ρ)}
    {l : Session} {u : History env ρ}, (∀ v, N v → L.may req es v) → Abides L es i req l u →
    (ledger env t₀ L).wp i req (fun _ => Abides L es i req) p l u

theorem Confined.mono {N' : Write → Prop} {p : App α} (h : Confined env t₀ N p)
    (hN : ∀ v, N v → N' v) : Confined env t₀ N' p :=
  fun ρ L _ _ _ _ _ hmay hl => h ρ L (fun v hv => hmay v (hN v hv)) hl

theorem confined_handle {p : App α} {h : Error → App α} (hp : Confined env t₀ N p)
    (hh : ∀ e, Confined env t₀ N (h e)) : Confined env t₀ N (p.handle h) := by
  intro ρ L i req es l u hN hl
  refine Protocol.wp_bind (Protocol.wp_attempt ((hp ρ L hN hl).mono fun out l w _ _ habides => ?_))
  cases out with
  | error e => exact hh e ρ L hN habides
  | ok a => exact fun w' hw => habides.rely hw.1

/-- The statement writes nothing but `N`, whatever it finds. -/
def Stmt.Within (N : Write → Prop) (o : Stmt) : Prop := ∀ v, o.Writes v → N v

theorem confined_of_all {p : App α} (hp : p.All (Stmt.Within N)) : Confined env t₀ N p := by
  intro ρ L i req es l u hN hl
  exact wp_licensed (hp.mono fun o ho v hv => hN v (ho v hv)) hl

theorem confined_bind {p : App α} {f : α → App β} (hp : Confined env t₀ N p)
    (hf : ∀ a, Confined env t₀ N (f a)) : Confined env t₀ N (p.bind f) := by
  intro ρ L i req es l u hN hl
  refine Protocol.wp_bind ((hp ρ L hN hl).mono fun out l w _ _ h => ?_)
  cases out with
  | error e => exact h
  | ok a => exact hf a ρ L hN h

theorem Stmt.Uses.within {o : Stmt} (h : o.Uses [] []) : o.Within N := by
  intro v hv
  cases o with
  | insert τ draft =>
      cases τ
      case auditLogs => exact absurd (h ⟨0⟩ 0) List.not_mem_nil
      all_goals exact absurd h List.not_mem_nil
  | updateLastLoginAt _ _ | updateIsActive _ _ | revokeIfActive _ _ | updateRevokedAt _ _
  | updateReplacedBy _ _ | deleteRolePermission _ _ | deleteUserRole _ | deleteMembership _ =>
      exact absurd h List.not_mem_nil
  | _ => exact hv.elim

theorem within_reads {p : App α} (h : Uses [] [] p) : p.All (Stmt.Within N) :=
  h.mono fun _ => Stmt.Uses.within

theorem within_insert {τ : Table} {draft : τ.Draft} (h : ∀ u now, N (.insert τ (draft.row u now))) :
    (Stmt.insert τ draft).Within N := by
  intro v hv
  obtain ⟨u, now, rfl⟩ := hv
  exact h u now

/-- `session.add(row); await session.commit()` in a `try`. -/
theorem within_tryInsert {τ : Table} {draft : τ.Draft} {e : Error} {f : τ.Row → App α}
    (h : ∀ u now, N (.insert τ (draft.row u now))) (hf : ∀ row, (f row).All (Stmt.Within N)) :
    (exceptIntegrityError (do
      let row ← App.insert τ draft
      f row) e).All (Stmt.Within N) := by
  refine All.handle (All.bind (All.bind (all_issue (within_insert h)) fun row => ?_) hf)
    fun e' => ?_
  · cases row <;> trivial
  · split
    · exact within_reads ((uses_issue (o := .rollback) trivial).bind fun _ => trivial)
    · trivial

theorem within_record {a : AuditRecord}
    (h : ∀ id now, N (.insert .auditLogs ((AuditLogRepository.draft a).row id now))) :
    (AuditLogRepository.record a).All (Stmt.Within N) := by
  refine All.bind (All.bind (all_issue (within_insert h)) fun row => ?_) fun row =>
    within_reads (uses_commit.bind fun _ => uses_refresh _ _)
  cases row <;> trivial

theorem within_commit (a : α) : (App.commit.bind fun _ => (.ret a : App α)).All (Stmt.Within N) :=
  within_reads (uses_commit.bind fun _ => trivial)

/-- A row that the session sees was there at the start, or a statement has inserted it. -/
theorem born_of_view {ρ : Type} {w : History env ρ} {l : Session} {τ : Table} {x : τ.Row}
    (hw : Provenance t₀ w) (hl : Entered l w) (hx : x ∈ (l.view w.shared).rows τ) :
    Born t₀ w τ x := by
  cases Write.row_of_view hx with
  | inl hfound =>
      obtain ⟨y, hy, hfixed⟩ := hfound
      cases hw.born τ y hy with
      | inl hstart =>
          obtain ⟨z, hz, hfixed'⟩ := hstart
          exact .inl ⟨z, hz, hfixed'.trans hfixed⟩
      | inr hdrawn =>
          obtain ⟨e, he, z, hinserted, hfixed'⟩ := hdrawn
          exact .inr ⟨e, he, z, hinserted, hfixed'.trans hfixed⟩
  | inr hpending =>
      obtain ⟨y, hy, hfixed⟩ := hpending
      obtain ⟨e, he, hinserted⟩ := hl τ y hy
      exact .inr ⟨e, he, y, hinserted, hfixed⟩

/-- The id of a row that was found stands for that row whenever it is looked up again. -/
theorem Born.found_again {ρ : Type} {L : Licence env ρ} {i : Nat} {w w' : History env ρ}
    {l : Session} {τ : Table} {x y : τ.Row} {id : Uuid} (ht₀ : t₀.Ready env)
    (hx : Born t₀ w τ x) (htrace : w.trace ⊆ w'.trace) (hinv : (ledger env t₀ L).inv w')
    (hloc : (ledger env t₀ L).loc i l w') (hy : y ∈ (l.view w'.shared).rows τ)
    (hxid : .primary τ id ∈ τ.keys x) (hyid : .primary τ id ∈ τ.keys y) :
    τ.fixed y = τ.fixed x := by
  have hborn := born_of_view hinv.2 hloc.2 hy
  exact hborn.unique ht₀.schema ht₀.undrawn hinv.2 hinv.1.placed (hx.mono htrace) hyid hxid

/-- What a DELETE leaves to be published is the row that it has found. -/
theorem found_of_writeRow {i c : Nat} {found : Option Write} {g g' : Database} {l l' : Session}
    {v : Write} (h : writeRow i found g l = some (c, g', l')) (hv : v ∈ l'.pending)
    (hnew : v ∉ l.pending) : found = some v := by
  cases writeRow_eq_some.mp h with
  | inl h =>
      obtain ⟨-, -, -, rfl⟩ := h
      exact absurd hv hnew
  | inr h =>
      obtain ⟨w, hw, -, -, rfl⟩ := h
      rw [Session.push_pending, List.mem_append, List.mem_singleton] at hv
      exact hw.trans (congrArg some (hv.resolve_left hnew).symm)

section Removals
variable {u x o' : Uuid} {o : Option Uuid}

/-- `scalar_one_or_none()` and a DELETE of the row that was found: whatever goes on in between,
that is the row that goes. -/
theorem confined_deleteFound {τ : Table} {q : Tables → List τ.Row} {d : τ.Row → Write}
    {stmt : τ.Row → Stmt} {k : Option τ.Row → App Bool} {f : ∀ x, (stmt x).Res → App Bool}
    (ht₀ : t₀.Ready env) (hfixed : ∀ x, τ.fixed x = x) (hobject : ∀ l x, Session.object l τ x = x)
    (hq : ∀ t, ∀ x ∈ q t, x ∈ t.rows τ ∧ N (d x)) (hnone : (k none).All (Stmt.Within N))
    (hsome : ∀ x, k (some x) = (App.issue (stmt x)).bind (f x))
    (hf : ∀ x r, (f x r).All (Stmt.Within N))
    (hdel : ∀ {x n i r g g' l l' v}, exec env n i (stmt x) g l = some (r, g', l') →
      v ∈ l'.pending → v ∉ l.pending → ∃ y ∈ (l.view g).rows τ, v = d y ∧
        ∃ id, .primary τ id ∈ τ.keys x ∧ .primary τ id ∈ τ.keys y) :
    Confined env t₀ N ((App.select τ q).bind fun rows => (scalarOneOrNone rows).bind k) := by
  intro ρ L i req es l w hmay hl
  have hall : ∀ {p : App Bool}, p.All (Stmt.Within N) →
      p.All fun o => ∀ v, Stmt.Writes o v → L.may req es v :=
    fun hp => hp.mono fun o ho v hv => hmay v (ho v hv)
  refine wp_ledger hl fun v rows w' l' hv hexec hinv habides => ?_
  have hl' : Abides L es i req l' w' := habides fun p hp => hp.elim
  obtain ⟨g, hg, -, -⟩ := World.exec_step hexec
  obtain ⟨hrows, -, -⟩ := exec_select hg
  match rows, hrows with
  | [], _ => exact wp_licensed (hall hnone) hl'
  | _ :: _ :: _, _ => exact fun w'' hw'' => hl'.rely hw''.1
  | [x], hrows =>
      have hx : x ∈ q (l.view v.shared) := by
        have hmem : x ∈ [x] := List.mem_singleton_self x
        rw [hrows, List.map_congr_left fun y _ => hobject l y, List.map_id'] at hmem
        exact hmem
      have hborn : Born t₀ v τ x := born_of_view hv.2.1.2 hv.2.2.2 (hq _ x hx).1
      change (ledger env t₀ L).wp i req _ (k (some x)) l' w'
      rw [hsome]
      refine wp_ledger hl' fun v₂ n w₂ l₂ hv₂ hexec₂ hinv₂ habides₂ => ?_
      refine wp_licensed (hall (hf x n)) (habides₂ fun p _ hp hnew => ?_)
      obtain ⟨g₂, hg₂, -, -⟩ := World.exec_step hexec₂
      obtain ⟨y, hy, rfl, id, hxid, hyid⟩ := hdel hg₂ hp hnew
      have htrace : v.trace ⊆ v₂.trace := fun e he =>
        interference_trace hv₂.1 (subset_trace_exec hexec he)
      have hsame := hborn.found_again ht₀ htrace hv₂.2.1 hv₂.2.2 hy hxid hyid
      rw [hfixed, hfixed] at hsame
      exact hsame ▸ hmay _ (hq _ x hx).2

theorem revoke_confined (ht₀ : t₀.Ready env)
    (hN : ∀ ur : UserRole, ur.Matches u x o → N (.deleteUserRole ur)) :
    Confined env t₀ N (UserRoleRepository.revoke u x o) := by
  refine confined_deleteFound (τ := .userRoles) (d := .deleteUserRole)
    (f := fun _ _ => App.commit.bind fun _ => .ret true)
    ht₀ (fun _ => rfl) (fun _ _ => rfl) (fun t ur hur => ?_) ?_ (fun _ => rfl)
    (fun _ _ => within_commit true) fun h hv hnew => ?_
  · rw [List.mem_filter, decide_eq_true_eq] at hur
    exact ⟨hur.1, hN ur hur.2⟩
  · exact trivial
  · obtain ⟨y, hy, rfl⟩ := Option.map_eq_some_iff.mp (found_of_writeRow h hv hnew)
    have hid := by simpa using List.find?_some hy
    exact ⟨y, List.mem_of_find?_eq_some hy, rfl, _, List.mem_cons_self, hid ▸ List.mem_cons_self⟩

theorem removeMember_confined (ht₀ : t₀.Ready env)
    (hN : ∀ m : OrganizationMembership, m.userId = u ∧ m.organizationId = o' →
      N (.deleteMembership m)) :
    Confined env t₀ N (OrganizationMembershipRepository.removeMember u o') := by
  refine confined_deleteFound (τ := .memberships) (d := .deleteMembership)
    (f := fun _ _ => App.commit.bind fun _ => .ret true)
    ht₀ (fun _ => rfl) (fun _ _ => rfl) (fun t m hm => ?_) ?_ (fun _ => rfl)
    (fun _ _ => within_commit true) fun h hv hnew => ?_
  · simp only [OrganizationMembershipRepository.membershipsOf, List.mem_filter,
      decide_eq_true_eq] at hm
    exact ⟨hm.1, hN m hm.2⟩
  · exact trivial
  · obtain ⟨y, hy, rfl⟩ := Option.map_eq_some_iff.mp (found_of_writeRow h hv hnew)
    have hid := by simpa using List.find?_some hy
    exact ⟨y, List.mem_of_find?_eq_some hy, rfl, _, List.mem_cons_self, hid ▸ List.mem_cons_self⟩

theorem removePermission_confined {q : Uuid} (hN : N (.deleteRolePermission ⟨x, q⟩)) :
    Confined env t₀ N (RoleRepository.removePermission x q) := by
  intro ρ L i req es l w hmay hl
  refine wp_ledger hl fun v n w' l' hv hexec hinv habides => ?_
  have hall : (App.commit.bind fun _ => (.ret (0 < n) : App Bool)).All
      fun o => ∀ v, Stmt.Writes o v → L.may req es v :=
    (within_commit (decide (0 < n))).mono fun o ho v hv => hmay v (ho v hv)
  refine wp_licensed hall (habides fun p _ hp hnew => ?_)
  obtain ⟨g, hg, -, -⟩ := World.exec_step hexec
  obtain ⟨y, hy, rfl⟩ := Option.map_eq_some_iff.mp (found_of_writeRow hg hp hnew)
  obtain ⟨rfl, rfl⟩ : y.roleId = x ∧ y.permissionId = q := by simpa using List.find?_some hy
  exact hmay _ hN

end Removals

namespace Administration

/-- The changes that the call can make. -/
def Makes : Administration → Write → Prop
  | createRole n d o _, .insert .roles x =>
      x.name = n ∧ x.description = d ∧ x.isSystemRole = false ∧ x.organizationId = o
  | assignRole u r o _, .insert .userRoles x | revokeRole u r o _, .deleteUserRole x =>
      x.Matches u r o
  | assignPermissionToRole r p _, .insert .rolePermissions x
  | removePermissionFromRole r p _, .deleteRolePermission x => x = ⟨r, p⟩
  | createOrganization n _, .insert .organizations x => x.name = n
  | addMember u o _, .insert .memberships x | removeMember u o _, .deleteMembership x =>
      x.userId = u ∧ x.organizationId = o
  | _, _ => False

/-- Events of its action, and of its actor. -/
def Tells (a : Administration) : Write → Prop
  | .insert .auditLogs x => x.action = a.action ∧ x.actorUserId = some a.actor
  | _ => False

def Footprint (a : Administration) (v : Write) : Prop := a.Makes v ∨ a.Tells v

section Calls
open AuthorizationService OrganizationService

theorem tells_record (a : Administration) {e : AuditRecord} (h : e.action = a.action)
    (hactor : e.actorUserId = some a.actor) :
    (AuditLogRepository.record e).All (Stmt.Within a.Footprint) :=
  within_record fun _ _ => .inr ⟨h, hactor⟩

theorem createRole_confined (n : String) (d : Option String) (o : Option Uuid) (actor : Uuid) :
    Confined env t₀ (Administration.createRole n d o actor).Footprint
      (AuthorizationService.createRole n d o actor) := by
  refine confined_of_all (All.bind (within_reads (requireOrganization_uses o)) fun _ => ?_)
  refine All.bind (All.handle (All.bind (within_tryInsert (fun u now => .inl ?_) fun row => ?_)
    fun role => within_reads (uses_refresh _ _)) fun e => ?_) fun role => ?_
  · exact ⟨rfl, rfl, rfl, rfl⟩
  · exact within_reads (uses_commit.bind fun _ => trivial)
  · split <;> trivial
  · exact (tells_record (.createRole n d o actor) rfl rfl).bind fun _ => trivial

theorem assignRole_confined (u x : Uuid) (o : Option Uuid) (actor : Uuid) :
    Confined env t₀ (Administration.assignRole u x o actor).Footprint
      (AuthorizationService.assignRole u x o actor) := by
  refine confined_of_all (All.bind (within_reads (uses_selectOne _)) fun role => ?_)
  split
  · trivial
  · split
    · trivial
    · refine All.bind (within_reads (requireMember_uses u o)) fun _ => ?_
      refine All.bind (All.handle (All.bind (within_tryInsert (fun _ _ => .inl ?_) fun row => ?_)
        fun role => within_reads (uses_refresh _ _)) fun e => ?_) fun row => ?_
      · exact ⟨rfl, rfl, rfl⟩
      · exact within_reads (uses_commit.bind fun _ => trivial)
      · split <;> trivial
      · exact (tells_record (.assignRole u x o actor) rfl rfl).bind fun _ => trivial

theorem assignPermissionToRole_confined (x q actor : Uuid) :
    Confined env t₀ (Administration.assignPermissionToRole x q actor).Footprint
      (AuthorizationService.assignPermissionToRole x q actor) := by
  refine confined_of_all (All.bind (within_reads (uses_selectOne _)) fun role => ?_)
  split
  · trivial
  · refine All.bind (within_reads (uses_selectOne _)) fun permission => ?_
    split
    · trivial
    · refine All.bind (All.handle (within_tryInsert (fun _ _ => .inl ?_) fun row => ?_)
        fun e => ?_) fun _ => ?_
      · exact rfl
      · exact within_reads uses_commit
      · split <;> trivial
      · exact (tells_record (.assignPermissionToRole x q actor) rfl rfl).bind fun _ => trivial

theorem createOrganization_confined (n : String) (actor : Uuid) :
    Confined env t₀ (Administration.createOrganization n actor).Footprint
      (OrganizationService.createOrganization n actor) := by
  refine confined_of_all (All.bind (All.handle (All.bind (within_tryInsert (fun _ _ => .inl rfl)
    fun row => ?_) fun organization => within_reads (uses_refresh _ _)) fun e => ?_) fun row => ?_)
  · exact within_reads (uses_commit.bind fun _ => trivial)
  · split <;> trivial
  · exact (tells_record (.createOrganization n actor) rfl rfl).bind fun _ => trivial

theorem addMember_confined (u o actor : Uuid) :
    Confined env t₀ (Administration.addMember u o actor).Footprint
      (OrganizationService.addMember u o actor) := by
  refine confined_of_all (All.bind (within_reads (uses_selectOne _)) fun user => ?_)
  split
  · trivial
  · refine All.bind (within_reads (requireOrganization_uses _)) fun _ => ?_
    refine All.bind (All.handle (All.bind (within_tryInsert (fun _ _ => .inl ?_) fun row => ?_)
      fun role => within_reads (uses_refresh _ _)) fun e => ?_) fun row => ?_
    · exact ⟨rfl, rfl⟩
    · exact within_reads (uses_commit.bind fun _ => trivial)
    · split <;> trivial
    · exact (tells_record (.addMember u o actor) rfl rfl).bind fun _ => trivial

theorem revokeRole_confined (ht₀ : t₀.Ready env) (u x : Uuid) (o : Option Uuid) (actor : Uuid) :
    Confined env t₀ (Administration.revokeRole u x o actor).Footprint
      (AuthorizationService.revokeRole u x o actor) := by
  have hrevoke : Confined env t₀ (Administration.revokeRole u x o actor).Footprint
      (UserRoleRepository.revoke u x o) :=
    revoke_confined ht₀ fun ur hur => .inl hur
  refine confined_bind hrevoke fun revoked => confined_of_all ?_
  cases revoked with
  | false => trivial
  | true => exact (tells_record (.revokeRole u x o actor) rfl rfl).bind fun _ => trivial

theorem removePermissionFromRole_confined (x q actor : Uuid) :
    Confined env t₀ (Administration.removePermissionFromRole x q actor).Footprint
      (AuthorizationService.removePermissionFromRole x q actor) := by
  refine confined_bind (confined_of_all (within_reads (uses_selectOne _))) fun role => ?_
  cases role with
  | none => exact confined_of_all trivial
  | some role =>
      refine confined_bind (removePermission_confined (.inl rfl)) fun removed => confined_of_all ?_
      cases removed with
      | false => trivial
      | true =>
          exact (tells_record (.removePermissionFromRole x q actor) rfl rfl).bind fun _ => trivial

theorem removeMember_confined (ht₀ : t₀.Ready env) (u o actor : Uuid) :
    Confined env t₀ (Administration.removeMember u o actor).Footprint
      (OrganizationService.removeMember u o actor) := by
  have hremove : Confined env t₀ (Administration.removeMember u o actor).Footprint
      (OrganizationMembershipRepository.removeMember u o) :=
    SecureIam.removeMember_confined ht₀ fun m hm => .inl hm
  refine confined_bind hremove fun removed => confined_of_all ?_
  cases removed with
  | false => trivial
  | true => exact (tells_record (.removeMember u o actor) rfl rfl).bind fun _ => trivial

/-- The service makes no changes but those that its arguments name. -/
theorem confined (ht₀ : t₀.Ready env) (a : Administration) :
    Confined env t₀ a.Footprint (call env a.request) := by
  have hreply : ∀ {α : Type} (f : α → Response) (r : α),
      Confined env t₀ a.Footprint (.ret (f r)) := fun _ _ => confined_of_all trivial
  cases a with
  | createRole n d o actor => exact confined_bind (createRole_confined n d o actor) (hreply _)
  | assignRole u x o actor => exact confined_bind (assignRole_confined u x o actor) (hreply _)
  | revokeRole u x o actor => exact confined_bind (revokeRole_confined ht₀ u x o actor) (hreply _)
  | assignPermissionToRole x q actor =>
      exact confined_bind (assignPermissionToRole_confined x q actor) (hreply _)
  | removePermissionFromRole x q actor =>
      exact confined_bind (removePermissionFromRole_confined x q actor) (hreply _)
  | createOrganization n actor =>
      exact confined_bind (createOrganization_confined n actor) (hreply _)
  | addMember u o actor => exact confined_bind (addMember_confined u o actor) (hreply _)
  | removeMember u o actor => exact confined_bind (removeMember_confined ht₀ u o actor) (hreply _)

end Calls

end Administration

namespace Write

def table : Write → Table
  | insert τ _ => τ
  | setLastLoginAt _ _ | setIsActive _ _ => .users
  | setRevokedAt _ _ | setReplacedBy _ _ => .refreshTokens
  | deleteRolePermission _ => .rolePermissions
  | deleteUserRole _ => .userRoles
  | deleteMembership _ => .memberships

/-- A write of one of the tables, or an event of one of the actions. -/
def Uses (τs : List Table) (as : List AuditAction) : Write → Prop
  | insert .auditLogs x => x.action ∈ as
  | v => v.table ∈ τs

end Write

theorem Stmt.Uses.writes {τs : List Table} {as : List AuditAction} {o : Stmt} (h : o.Uses τs as) :
    o.Within (Write.Uses τs as) := by
  intro v hv
  cases o with
  | insert τ draft =>
      obtain ⟨u, now, rfl⟩ := hv
      cases τ
      case auditLogs => exact h u now
      all_goals exact h
  | updateLastLoginAt _ _ | updateIsActive _ _ | revokeIfActive _ _ | updateRevokedAt _ _
  | updateReplacedBy _ _ =>
      obtain rfl := hv
      exact h
  | deleteRolePermission _ _ | deleteUserRole _ | deleteMembership _ =>
      obtain ⟨row, rfl⟩ := hv
      exact h
  | _ => exact hv.elim

theorem within_uses {τs : List Table} {as : List AuditAction} {p : App α} (h : Uses τs as p)
    (hN : ∀ v, Write.Uses τs as v → N v) : p.All (Stmt.Within N) :=
  h.mono fun _ ho v hv => hN v (ho.writes v hv)

/-- The call that it is, if it is one of the eight. -/
def Request.administration : Request → Option Administration
  | createRole n d o actor => some (.createRole n d o actor)
  | assignRole u r o actor => some (.assignRole u r o actor)
  | revokeRole u r o actor => some (.revokeRole u r o actor)
  | assignPermissionToRole r p actor => some (.assignPermissionToRole r p actor)
  | removePermissionFromRole r p actor => some (.removePermissionFromRole r p actor)
  | createOrganization n actor => some (.createOrganization n actor)
  | addMember u o actor => some (.addMember u o actor)
  | removeMember u o actor => some (.removeMember u o actor)
  | _ => none

theorem Request.administration_request {req : Request} {a : Administration}
    (h : req.administration = some a) : req = a.request := by
  cases req <;> cases h <;> rfl

/-- What a call can write, whoever runs it and whenever. -/
def Request.Issues (req : Request) (v : Write) : Prop :=
  match req.administration, req with
  | some a, _ => a.Footprint v
  | none, .register _ _ =>
      (∃ x, v = .insert .users x ∧ x.isActive = true) ∨ v.Uses [] req.actions
  | none, .login _ _ => (∃ id t, v = .setLastLoginAt id t) ∨ v.Uses [.refreshTokens] req.actions
  | none, .setIsActive u active => v = .setIsActive u active
  | none, _ => v.Uses (req.tables.filter (· = .refreshTokens)) req.actions

/-- What the other calls can write. -/
theorem Request.writes_of_plain {req : Request} {v : Write} (hadmin : req.administration = none)
    (h : req.Issues v) :
    (v.table = .refreshTokens ∨ v.table = .auditLogs) ∨
      (∃ email password x, req = .register email password ∧ v = .insert .users x ∧
        x.isActive = true) ∨
      (∃ id now, v = .setLastLoginAt id now) ∨
      ∃ u active, req = .setIsActive u active ∧ v = .setIsActive u active := by
  have huses : ∀ {τs as}, τs ⊆ [.refreshTokens] → v.Uses τs as →
      v.table = .refreshTokens ∨ v.table = .auditLogs := by
    intro τs as hτs hv
    cases v with
    | insert τ row =>
        cases τ with
        | auditLogs => exact .inr rfl
        | _ => exact .inl (List.mem_singleton.mp (hτs hv))
    | _ => exact .inl (List.mem_singleton.mp (hτs hv))
  cases req with
  | register email password =>
      cases h with
      | inl h =>
          obtain ⟨x, hx, hactive⟩ := h
          exact .inr (.inl ⟨email, password, x, rfl, hx, hactive⟩)
      | inr h => exact .inl (huses (List.nil_subset _) h)
  | login email password =>
      cases h with
      | inl h => exact .inr (.inr (.inl h))
      | inr h => exact .inl (huses (List.Subset.refl _) h)
  | setIsActive u active => exact .inr (.inr (.inr ⟨u, active, rfl, h⟩))
  | refresh x => exact .inl (huses (List.Subset.refl _) h)
  | logout x => exact .inl (huses (List.Subset.refl _) h)
  | authorize _ _ _ _ | getUserPermissions _ _ | listMembers _ | listOrganizationsForUser _
  | listEvents _ _ _ => exact .inl (huses (List.nil_subset _) h)
  | _ => cases hadmin

/-- Nor do they record any of the eight events. -/
theorem Request.event_of_plain {req : Request} {x : AuditLog} (hadmin : req.administration = none)
    (h : req.Issues (.insert .auditLogs x)) (a : Administration) : x.action ≠ a.action := by
  intro hx
  have hmem : x.action ∈ req.actions := by
    cases req with
    | register _ _ =>
        refine h.resolve_left fun h => ?_
        obtain ⟨y, hy, -⟩ := h
        cases hy
    | login _ _ =>
        refine h.resolve_left fun h => ?_
        obtain ⟨id, now, hset⟩ := h
        cases hset
    | setIsActive _ _ => cases h
    | refresh _ | logout _ | authorize _ _ _ _ | getUserPermissions _ _ | listMembers _
    | listOrganizationsForUser _ | listEvents _ _ _ => exact h
    | _ => cases hadmin
  rw [hx] at hmem
  have hother : ∀ b ∈ req.actions, b ≠ a.action := by
    cases req <;> try cases hadmin
    all_goals
      intro b hb
      cases a <;> simp only [actions, List.mem_cons, List.not_mem_nil, or_false] at hb <;>
        grind [Administration.action]
  exact hother _ hmem rfl

theorem Request.issues_not_permission {req : Request} {w : Write} (h : req.Issues w) :
    w.table ≠ .permissions := by
  intro htable
  cases hadmin : req.administration with
  | none =>
      obtain h | ⟨_, _, _, -, rfl, -⟩ | ⟨_, _, rfl⟩ | ⟨_, _, -, rfl⟩ := writes_of_plain hadmin h
      · simp [htable] at h
      all_goals cases htable
  | some a =>
      obtain rfl := administration_request hadmin
      have hfootprint : a.Footprint w := by cases a <;> exact h
      cases w with
      | insert τ row =>
          cases τ
          case permissions => cases a <;> exact hfootprint.elim id id
          all_goals cases htable
      | _ => cases htable

theorem Write.rows_of_table {w : Write} {t : Tables} {τ : Table} (h : w.table ≠ τ) :
    (w.apply t).rows τ = t.rows τ := by
  cases w with
  | insert σ row => exact Tables.rows_insert_ne t (Ne.symm h) row
  | _ =>
      cases τ <;> first
        | rfl
        | exact absurd rfl h

section Accounts
open AuthService

theorem register_within (email password : String) :
    (AuthService.register env email password).All
      (Stmt.Within (Request.register email password).Issues) := by
  have hrecord : ∀ {a : AuditRecord}, a.action ∈ (Request.register email password).actions →
      (AuditLogRepository.record a).All (Stmt.Within (Request.register email password).Issues) :=
    fun ha => within_record fun _ _ => .inr ha
  have hcreate : ∀ hash, (UserRepository.createUser env email hash).All
      (Stmt.Within (Request.register email password).Issues) := by
    intro hash
    cases hfits : UserRepository.emailFits (env.lower email) with
    | false =>
        rw [UserRepository.createUser_of_not_fits hfits]
        trivial
    | true =>
        rw [UserRepository.createUser_of_fits hfits]
        exact All.bind (within_tryInsert (fun _ _ => .inl ⟨_, rfl, rfl⟩) fun row =>
          within_commit row) fun user => within_reads (uses_refresh _ _)
  refine All.bind (within_reads (uses_issue (o := .hashPassword password) trivial)) fun hash => ?_
  refine All.bind (All.handle (hcreate hash) fun e => ?_) fun user => ?_
  · split
    · exact (hrecord (List.mem_cons_of_mem _ List.mem_cons_self)).bind fun _ => trivial
    · trivial
  · exact (hrecord List.mem_cons_self).bind fun _ => trivial

theorem login_within (email password : String) :
    (AuthService.login env email password).All
      (Stmt.Within (Request.login email password).Issues) := by
  have hrecord : ∀ {a : AuditRecord}, a.action ∈ (Request.login email password).actions →
      (AuditLogRepository.record a).All (Stmt.Within (Request.login email password).Issues) :=
    fun ha => within_record fun _ _ => .inr ha
  refine All.bind (within_reads (getByEmail_uses email)) fun user => ?_
  split
  · exact (hrecord (List.mem_cons_of_mem _ List.mem_cons_self)).bind fun _ => trivial
  · rename_i user
    split
    · exact (hrecord (List.mem_cons_of_mem _ List.mem_cons_self)).bind fun _ => trivial
    · split
      · exact (hrecord (List.mem_cons_of_mem _ List.mem_cons_self)).bind fun _ => trivial
      · refine All.bind ?_ fun _ => (hrecord List.mem_cons_self).bind fun _ => ?_
        · refine (within_reads (uses_issue (o := .utcNow) trivial)).bind fun now => ?_
          have hlast : (App.issue (.updateLastLoginAt user.id now)).All
              (Stmt.Within (Request.login email password).Issues) :=
            all_issue fun v hv => .inl ⟨_, _, hv⟩
          refine hlast.bind fun count => within_reads ?_
          exact (uses_flushOne count).bind fun _ => uses_commit.bind fun _ => uses_refresh _ _
        · refine within_uses ?_ fun v hv => .inr hv
          refine (createAccessToken_uses _).bind fun _ => ?_
          refine (uses_issue (o := .tokenUrlsafe) trivial).bind fun _ => ?_
          refine refreshTokenExpiry_uses.bind fun _ => ?_
          exact (create_uses _ _ _ List.mem_cons_self).bind fun _ => trivial

theorem setIsActive_within (u : Uuid) (active : Bool) :
    (setIsActive u active).All (Stmt.Within (Request.setIsActive u active).Issues) := by
  have hupdate : (App.issue (.updateIsActive u active)).All
      (Stmt.Within (Request.setIsActive u active).Issues) :=
    all_issue fun v hv => hv
  exact hupdate.bind fun _ => within_reads uses_commit

end Accounts

theorem call_confined (ht₀ : t₀.Ready env) (req : Request) :
    Confined env t₀ req.Issues (call env req) := by
  cases hadmin : req.administration with
  | some a =>
      obtain rfl := Request.administration_request hadmin
      have hissues : a.Footprint = a.request.Issues := by cases a <;> rfl
      exact hissues ▸ a.confined ht₀
  | none =>
      refine confined_of_all ?_
      cases req with
      | register email password => exact (register_within email password).bind fun _ => trivial
      | login email password => exact (login_within email password).bind fun _ => trivial
      | setIsActive u active => exact (setIsActive_within u active).bind fun _ => trivial
      | refresh x => exact within_uses (call_uses (.refresh x)) fun v hv => hv
      | logout x => exact within_uses (call_uses (.logout x)) fun v hv => hv
      | authorize u r a o => exact within_uses (call_uses (.authorize u r a o)) fun v hv => hv
      | getUserPermissions u o =>
          exact within_uses (call_uses (.getUserPermissions u o)) fun v hv => hv
      | listMembers o => exact within_uses (call_uses (.listMembers o)) fun v hv => hv
      | listOrganizationsForUser u =>
          exact within_uses (call_uses (.listOrganizationsForUser u)) fun v hv => hv
      | listEvents f limit offset =>
          exact within_uses (call_uses (.listEvents f limit offset)) fun v hv => hv
      | _ => cases hadmin

/-- What the calls may write is what they name, at any time. -/
def issues (env : Environment) : Licence env Request := ⟨fun req _ => req.Issues, fun h => h⟩

theorem serve_ledger (ht₀ : t₀.Ready env) :
    (ledger env t₀ (issues env)).Serves (fun _ _ _ _ _ => True) (serve env) := by
  intro req i w hinv hnew
  have hcall : (ledger env t₀ (issues env)).wp i req
      (fun _ => Abides (issues env) (w.own i) i req) (call env req) {} w :=
    call_confined ht₀ req Request (issues env) (fun v hv => hv) (Abides.of_nil rfl)
  refine Protocol.wp_ensure (hcall.mono fun out l' w' _ _ h => ?_) fun _ _ _ => trivial
  have hrollback : App.rollback.All fun o => ∀ v, Stmt.Writes o v →
      (issues env).may req (w.own i) v :=
    (within_reads (uses_issue (o := .rollback) trivial)).mono fun _ ho => ho
  refine (wp_licensed hrollback h).mono fun stop _ _ _ _ _ => ?_
  cases stop <;> trivial

end SecureIam
