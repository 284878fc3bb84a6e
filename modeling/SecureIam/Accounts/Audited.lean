import SecureIam.Access.Changes
import SecureIam.Accounts.Durability

/-!
A change and its event are committed one after the other: which calls, cut off at which
points, leave the one without the other.
-/
namespace SecureIam
open Lib
variable {env : Environment} {t t₁ t₂ g : Tables} {p : Calls env} {n step : Nat}
  {w : History env Request} {event event' : AuditRecord} {versions before : List Tables}

def Administration.action : Administration → AuditAction
  | createRole _ _ _ _ => .roleCreated
  | assignRole _ _ _ _ => .roleAssigned
  | revokeRole _ _ _ _ => .roleRevoked
  | assignPermissionToRole _ _ _ => .permissionAssignedToRole
  | removePermissionFromRole _ _ _ => .permissionRemovedFromRole
  | createOrganization _ _ => .organizationCreated
  | addMember _ _ _ => .organizationMemberAdded
  | removeMember _ _ _ => .organizationMemberRemoved

/-- The calls whose changes are recorded. -/
inductive Audited where
  | administration (a : Administration)
  | register (email password : String)
  | refresh (x : PyStr)
  | logout (x : PyStr)

namespace Tables

/-- All tables but the log are the same. -/
def Alike (t g : Tables) : Prop := { g with auditLogs := [] } = { t with auditLogs := [] }

instance (t g : Tables) : Decidable (t.Alike g) := inferInstanceAs (Decidable (_ = _))

/-- The event is in the log, and was not there. -/
def Logs (t g : Tables) (event : AuditRecord) : Prop :=
  ∃ id now, (AuditLogRepository.draft event).row id now ∈ g.auditLogs ∧
    (AuditLogRepository.draft event).row id now ∉ t.auditLogs

theorem Alike.symm (h : t.Alike g) : g.Alike t := Eq.symm h

theorem Alike.trans (h : t.Alike t₁) (h' : t₁.Alike g) : t.Alike g := Eq.trans h' h

theorem Alike.rows {τ : Table} (h : t.Alike g) (hτ : τ ≠ .auditLogs) : g.rows τ = t.rows τ := by
  have hrows := congrArg (Tables.rows · τ) h
  cases τ with
  | auditLogs => exact absurd rfl hτ
  | _ => exact hrows

theorem not_alike_insert {τ : Table} (hτ : τ ≠ .auditLogs) (row : τ.Row) :
    ¬ t.Alike (t.insert τ row) := by
  intro halike
  have hrows := halike.rows hτ
  rw [rows_insert_self] at hrows
  simpa using congrArg List.length hrows

end Tables

namespace Audited

def request : Audited → Request
  | administration a => a.request
  | register email password => .register email password
  | refresh x => .refresh x
  | logout x => .logout x

/-- The kind of the event. -/
def action : Audited → AuditAction
  | administration a => a.action
  | register _ _ => .userRegistered
  | refresh _ => .refreshTokenRotated
  | logout _ => .userLogout

/-- What a call changes that starts on the tables `t`, at the step `step` of the run, and the
event of the change. The premises are the checks that the call makes. -/
inductive Makes (env : Environment) (t : Tables) (step : Nat) :
    Audited → Tables → AuditRecord → Prop
  | administration {a : Administration} {id : Uuid} {now : Time} {write : Write}
      {event : AuditRecord} {r : Response} (h : a.Changes t id now write event r) :
      Makes env t step (administration a) (write.apply t) event
  | register {email password : String} {user : User}
      (hfits : UserRepository.emailFits (env.lower email) = true)
      (hfree : ¬ t.hasKey (.email (env.lower email)))
      (hid : ∀ τ, ¬ t.hasKey (.primary τ user.id)) (hemail : user.email = env.lower email) :
      Makes env t step (register email password) (t.insert .users user)
        (ownEvent .userRegistered user.id)
  | refresh {x : String} {T child : RefreshToken} {now : Time} (hT : t.Presents env x T)
      (hlive : T.revokedAt = none) (hvalid : env.clock (step + 1) < T.expiresAt)
      (howner : t.Active T.userId) (hid : ∀ τ, ¬ t.hasKey (.primary τ child.id))
      (hchild : child.userId = T.userId ∧ child.revokedAt = none ∧ child.replacedBy = none) :
      Makes env t step (refresh (.text x)) (t.rotated T now child)
        (ownEvent .refreshTokenRotated T.userId)
  | logout {x : String} {T : RefreshToken} {now : Time} (hT : t.Presents env x T)
      (hlive : T.revokedAt = none) :
      Makes env t step (logout (.text x)) ((Write.setRevokedAt T.id now).apply t)
        (ownEvent .userLogout T.userId)

/-- The call has something to change. -/
def Effective (env : Environment) (t : Tables) (step : Nat) (a : Audited) : Prop :=
  ∃ t₁ event, a.Makes env t step t₁ event

/-- The change is in the tables `g`, whatever their log holds. -/
def Made (env : Environment) (t : Tables) (step : Nat) (a : Audited) (g : Tables)
    (event : AuditRecord) : Prop :=
  ∃ t₁, a.Makes env t step t₁ event ∧ t₁.Alike g

/-- The tables hold the change if and only if they hold its event. -/
structure Together (env : Environment) (t : Tables) (step : Nat) (a : Audited) (g : Tables) :
    Prop where
  recorded : ∀ event, a.Made env t step g event → t.Logs g event
  made : ∀ event, event.action = a.action → t.Logs g event → a.Made env t step g event

end Audited

namespace Administration
variable {a : Administration} {id id' : Uuid} {now now' : Time} {write write' : Write}
    {r r' : Response}

theorem Changes.logs (h : a.Changes t id now write event r) :
    (write.apply t).auditLogs = t.auditLogs := by
  cases h <;> rfl

theorem Changes.not_alike (h : a.Changes t id now write event r) :
    ¬ t.Alike (write.apply t) := by
  have deleted : ∀ {τ : Table} {row : τ.Row}, τ ≠ .auditLogs → row ∈ t.rows τ →
      row ∉ (write.apply t).rows τ → ¬ t.Alike (write.apply t) :=
    fun hτ hrow hgone halike => hgone (halike.rows hτ ▸ hrow)
  cases h with
  | createRole _ _ | assignRole _ _ _ _ _ _ | assignPermissionToRole _ _ _ _
  | createOrganization _ | addMember _ _ _ =>
      exact Tables.not_alike_insert (by decide) _
  | revokeRole hur _ _ _ =>
      exact deleted (τ := .userRoles) (by decide) hur (by simp [Write.apply, Tables.rows])
  | removePermissionFromRole _ _ hrp _ _ =>
      exact deleted (τ := .rolePermissions) (by decide) hrp (by simp [Write.apply, Tables.rows])
  | removeMember hm _ _ =>
      exact deleted (τ := .memberships) (by decide) hm (by simp [Write.apply, Tables.rows])

/-- The change tells what its event is. -/
theorem Changes.event_unique (ht : t.Schema) (h : a.Changes t id now write event r)
    (h' : a.Changes t id' now' write' event' r')
    (halike : (write.apply t).Alike (write'.apply t)) : event' = event := by
  have inserted : ∀ {τ : Table} {row row' : τ.Row}, τ ≠ .auditLogs →
      (t.insert τ row).Alike (t.insert τ row') → row' = row := by
    intro τ row row' hτ halike
    have hrows := halike.rows hτ
    simp only [Tables.rows_insert_self] at hrows
    exact List.singleton_inj.mp (List.append_cancel_left hrows)
  have same_role : ∀ {role role' : Role} {x : Uuid}, role ∈ t.roles → role.id = x →
      role' ∈ t.roles → role'.id = x → role' = role := by
    intro role role' x hrole hid hrole' hid'
    exact ht.row_unique (τ := .roles) (k := .primary .roles x) hrole' hrole
      (by simp [Table.keys, hid']) (by simp [Table.keys, hid])
  cases h with
  | createRole _ _ =>
      cases h' with
      | createRole _ _ =>
          have hrow := inserted (τ := .roles) (by decide) halike
          simpa using congrArg Role.id hrow
  | createOrganization _ =>
      cases h' with
      | createOrganization _ =>
          have hrow := inserted (τ := .organizations) (by decide) halike
          simpa using congrArg Organization.id hrow
  | assignPermissionToRole hrole hid _ _ =>
      cases h' with
      | assignPermissionToRole hrole' hid' _ _ => rw [same_role hrole hid hrole' hid']
  | removePermissionFromRole hrole hid _ _ _ =>
      cases h' with
      | removePermissionFromRole hrole' hid' _ _ _ => rw [same_role hrole hid hrole' hid']
  | assignRole _ _ _ _ _ _ => cases h'; rfl
  | revokeRole _ _ _ _ => cases h'; rfl
  | addMember _ _ _ => cases h'; rfl
  | removeMember _ _ _ => cases h'; rfl

/-- A call that has something to change is not refused, whatever key it draws. -/
theorem Changes.decided (ht : t.Schema) (h : a.Changes t id now write event r) (id' : Uuid)
    (now' : Time) : ∃ write' event' r', a.verdict t id' now' = .change write' event' r' := by
  have organization : ∀ {o : Option Uuid},
      (∀ org ∈ o, t.hasKey (.primary .organizations org)) → t.organizationError o = none := by
    intro o horg
    cases o with
    | none => rfl
    | some org => simp [Tables.organizationError, horg org rfl]
  have found : ∀ {role : Role} {x : Uuid}, role ∈ t.roles → role.id = x →
      t.roles.find? (·.id = x) = some role := by
    intro role x hrole hid
    cases hfind : t.roles.find? (·.id = x) with
    | none => simpa [hid] using List.find?_eq_none.mp hfind role hrole
    | some role' =>
        have hid' : role'.id = x := by simpa using List.find?_some hfind
        rw [ht.row_unique (τ := .roles) (k := .primary .roles x) hrole
          (List.mem_of_find?_eq_some hfind) (by simp [Table.keys, hid])
          (by simp [Table.keys, hid'])]
  cases h with
  | createRole hname horg =>
      simp only [verdict, organization horg, hname]
      exact ⟨_, _, _, rfl⟩
  | @assignRole u x o _ role hrole hid hscope horg hfree huser =>
      have hmember : t.memberError u o = none := by
        cases o with
        | none => rfl
        | some org =>
            obtain ⟨horganization, hmembership⟩ := horg org rfl
            simp [Tables.memberError, Tables.organizationError, horganization, hmembership]
      have hscope : ¬ (role.organizationId ≠ none ∧ role.organizationId ≠ o) := by tauto
      simp only [verdict, found hrole hid, if_neg hscope, hmember, hfree, huser]
      exact ⟨_, _, _, rfl⟩
  | @revokeRole u x o _ ur hur hu hx ho =>
      cases hfind : t.userRoles.find? fun ur =>
          ur.userId = u ∧ ur.roleId = x ∧ ur.organizationId = o with
      | none => simpa [hu, hx, ho] using List.find?_eq_none.mp hfind ur hur
      | some _ =>
          simp only [verdict, hfind]
          exact ⟨_, _, _, rfl⟩
  | assignPermissionToRole hrole hid hpermission hfree =>
      simp only [verdict, found hrole hid, hpermission, hfree]
      exact ⟨_, _, _, rfl⟩
  | @removePermissionFromRole x p _ role rp hrole hid hrp hx hp =>
      cases hfind : t.rolePermissions.find? fun rp => rp.roleId = x ∧ rp.permissionId = p with
      | none => simpa [hx, hp] using List.find?_eq_none.mp hfind rp hrp
      | some _ =>
          simp only [verdict, found hrole hid, hfind]
          exact ⟨_, _, _, rfl⟩
  | createOrganization hname =>
      simp only [verdict, hname]
      exact ⟨_, _, _, rfl⟩
  | @addMember u o _ huser horg hfree =>
      have horganization := organization (o := some o) fun org h => Option.some.inj h ▸ horg
      simp only [verdict, huser, horganization, hfree]
      exact ⟨_, _, _, rfl⟩
  | @removeMember u o _ m hm hu ho =>
      cases hfind : t.memberships.find? fun m => m.userId = u ∧ m.organizationId = o with
      | none => simpa [hu, ho] using List.find?_eq_none.mp hfind m hm
      | some _ =>
          simp only [verdict, hfind]
          exact ⟨_, _, _, rfl⟩

end Administration
namespace Audited
variable {a : Audited}

/-- The UPDATE of a token that is not revoked changes it. -/
theorem not_alike_setRevokedAt (ht : t.Schema) {T : RefreshToken} (hT : T ∈ t.refreshTokens)
    (hlive : T.revokedAt = none) (now : Time) :
    ¬ t.Alike ((Write.setRevokedAt T.id now).apply t) := by
  intro halike
  have hrows : ((Write.setRevokedAt T.id now).apply t).refreshTokens = t.refreshTokens :=
    halike.rows (τ := .refreshTokens) (by decide)
  have hmem : T ∈ ((Write.setRevokedAt T.id now).apply t).refreshTokens := hrows.symm ▸ hT
  rw [setRevokedAt_map ht hT] at hmem
  obtain ⟨r, -, hr⟩ := List.mem_map.mp hmem
  split at hr
  · simp [← hr] at hlive
  · rename_i hne
    exact hne hr

theorem Makes.not_alike (ht : t.Schema) (h : a.Makes env t step t₁ event) : ¬ t.Alike t₁ := by
  cases h with
  | administration h => exact h.not_alike
  | register _ _ _ _ => exact Tables.not_alike_insert (by decide) _
  | @refresh x T child now hT _ _ _ hid _ =>
      intro halike
      have hrows := halike.rows (τ := .refreshTokens) (by decide)
      have hlength := congrArg List.length ((rotated_map ht hT.mem now hid).symm.trans hrows)
      simp [Tables.rows] at hlength
  | logout hT hlive => exact not_alike_setRevokedAt ht hT.mem hlive _

/-- Of two changes that a call might make to the same effect, the events are the same. -/
theorem Makes.event_unique (ht : t.Schema) (h : a.Makes env t step t₁ event)
    (h' : a.Makes env t step t₂ event') (halike : t₁.Alike t₂) : event' = event := by
  cases h with
  | administration h =>
      cases h' with
      | administration h' => exact h.event_unique ht h' halike
  | register _ _ _ _ =>
      cases h' with
      | register _ _ _ _ =>
          have hrows := halike.rows (τ := .users) (by decide)
          simp only [Tables.rows_insert_self] at hrows
          rw [List.singleton_inj.mp (List.append_cancel_left hrows)]
  | refresh hT _ _ _ _ _ =>
      cases h' with
      | refresh hT' _ _ _ _ _ => rw [hT.only _ hT'.mem hT'.hash]
  | logout hT _ =>
      cases h' with
      | logout hT' _ => rw [hT.only _ hT'.mem hT'.hash]

/-- A call that is refused has nothing to change. -/
theorem not_effective_of_verdict (ht : t.Schema) {a : Administration} {id : Uuid} {now : Time}
    (h : ∀ write event r, a.verdict t id now ≠ .change write event r) :
    ¬ (administration a).Effective env t step := by
  intro heffective
  obtain ⟨_, _, hmakes⟩ := heffective
  cases hmakes with
  | administration hchanges =>
      obtain ⟨write, event, r, hverdict⟩ := hchanges.decided ht id now
      exact h write event r hverdict

/-- No event of the kind of the call has been recorded. -/
def Unrelated (t : Tables) (a : Audited) (v : Tables) : Prop :=
  ∀ e ∈ v.auditLogs, e ∈ t.auditLogs ∨ e.action ≠ a.action

theorem unrelated_of_eq (h : g.auditLogs = t.auditLogs) : Unrelated t a g :=
  fun _ he => .inl (h ▸ he)

theorem Unrelated.recorded (h : Unrelated t a g) (event : AuditRecord)
    (hne : event.action ≠ a.action) (id : Uuid) (now : Time) :
    Unrelated t a (g.recorded event id now) := by
  intro e he
  cases List.mem_append.mp he with
  | inl he => exact h e he
  | inr he => exact .inr (List.mem_singleton.mp he ▸ hne)

/-- The committed tables of a call, the last ones first: the change comes before its event. -/
inductive Course (env : Environment) (t : Tables) (step : Nat) (a : Audited) : List Tables → Prop
  | kept {versions : List Tables} (hidle : ¬ a.Effective env t step)
      (h : ∀ v ∈ versions, Unrelated t a v) :
      Course env t step a versions
  | changed {t₁ : Tables} {event : AuditRecord} {id : Uuid} {now : Time}
      (h : a.Makes env t step t₁ event) (hlogs : t₁.auditLogs = t.auditLogs)
      (hnew : (AuditLogRepository.draft event).row id now ∉ t.auditLogs) :
      Course env t step a [t₁.recorded event id now, t₁, t]
  | unrecorded {t₁ : Tables} {event : AuditRecord} (h : a.Makes env t step t₁ event)
      (hlogs : t₁.auditLogs = t.auditLogs) : Course env t step a [t₁, t]

theorem not_logs_of_eq (h : g.auditLogs = t.auditLogs) : ¬ t.Logs g event := by
  intro hlogs
  obtain ⟨id, now, hmem, hnew⟩ := hlogs
  exact hnew (h ▸ hmem)

/-- The row of an event says everything that is recorded. -/
theorem event_of_row {id id' : Uuid} {now now' : Time}
    (h : (AuditLogRepository.draft event').row id' now' =
      (AuditLogRepository.draft event).row id now) : event' = event := by
  cases event
  cases event'
  simp only [AuditLogRepository.draft, AuditLog.mk.injEq] at h
  simp [h]

/-- Nothing has happened yet. -/
theorem together_start (ht : t.Schema) : a.Together env t step t := by
  refine ⟨fun event hmade => ?_, fun event _ hlogs => absurd hlogs (not_logs_of_eq rfl)⟩
  obtain ⟨t₁, hmakes, halike⟩ := hmade
  exact absurd halike.symm (hmakes.not_alike ht)

/-- The change alone. -/
theorem not_together (h : a.Makes env t step t₁ event) (hlogs : t₁.auditLogs = t.auditLogs) :
    ¬ a.Together env t step t₁ :=
  fun htogether => not_logs_of_eq hlogs (htogether.recorded event ⟨t₁, h, rfl⟩)

/-- The change and its event. -/
theorem together_recorded (ht : t.Schema) (h : a.Makes env t step t₁ event)
    (hlogs : t₁.auditLogs = t.auditLogs) {id : Uuid} {now : Time}
    (hnew : (AuditLogRepository.draft event).row id now ∉ t.auditLogs) :
    a.Together env t step (t₁.recorded event id now) := by
  have hmem : (AuditLogRepository.draft event).row id now ∈
    (t₁.recorded event id now).auditLogs :=
    List.mem_append_right _ (List.mem_singleton_self _)
  refine ⟨fun event' hmade => ?_, fun event' _ hlogs' => ?_⟩
  · obtain ⟨t₂, hmakes, halike⟩ := hmade
    obtain rfl := h.event_unique ht hmakes halike.symm
    exact ⟨id, now, hmem, hnew⟩
  · obtain ⟨id', now', hmem', hnew'⟩ := hlogs'
    cases List.mem_append.mp hmem' with
    | inl hold => exact absurd (hlogs ▸ hold) hnew'
    | inr hlast =>
        obtain rfl := event_of_row (List.mem_singleton.mp hlast)
        exact ⟨t₁, h, rfl⟩

theorem Course.cut (ht : t.Schema) (h : Course env t step a versions)
    (hsuffix : (g :: before) <:+ versions) :
    a.Together env t step g ↔ ¬ (a.Effective env t step ∧ before.length = 1) := by
  have last : (g :: before) <:+ [t] → before = [] ∧ g = t := by
    intro hlast
    cases List.suffix_cons_iff.mp hlast with
    | inl hall => exact ⟨(List.cons.inj hall).2, (List.cons.inj hall).1⟩
    | inr hnil => exact absurd (List.suffix_nil.mp hnil) (List.cons_ne_nil _ _)
  have first : (g :: before) <:+ [t] →
      (a.Together env t step g ↔ ¬ (a.Effective env t step ∧ before.length = 1)) := by
    intro hlast
    obtain ⟨rfl, rfl⟩ := last hlast
    exact ⟨fun _ hcut => absurd hcut.2 (by simp), fun _ => together_start ht⟩
  have between : ∀ {event}, a.Makes env t step g event → g.auditLogs = t.auditLogs →
      before = [t] →
      (a.Together env t step g ↔ ¬ (a.Effective env t step ∧ before.length = 1)) := by
    intro event hmakes hlogs hbefore
    subst hbefore
    exact ⟨fun htogether => absurd htogether (not_together hmakes hlogs),
      fun hcut => absurd ⟨⟨_, _, hmakes⟩, rfl⟩ hcut⟩
  cases h with
  | kept hidle h =>
      refine ⟨fun _ hcut => hidle hcut.1, fun _ => ⟨fun event hmade => ?_,
        fun event haction hlogs => ?_⟩⟩
      · obtain ⟨t₁, hmakes, -⟩ := hmade
        exact absurd ⟨t₁, event, hmakes⟩ hidle
      · obtain ⟨id, now, hmem, hnew⟩ := hlogs
        exact ((h g (hsuffix.subset List.mem_cons_self) _ hmem).elim hnew (· haction)).elim
  | @changed t₁ event id now hmakes hlogs hnew =>
      cases List.suffix_cons_iff.mp hsuffix with
      | inl hall =>
          obtain ⟨rfl, rfl⟩ := List.cons.inj hall
          exact ⟨fun _ hcut => absurd hcut.2 (by simp),
            fun _ => together_recorded ht hmakes hlogs hnew⟩
      | inr hsuffix =>
          cases List.suffix_cons_iff.mp hsuffix with
          | inl hall =>
              obtain ⟨rfl, hbefore⟩ := List.cons.inj hall
              exact between hmakes hlogs hbefore
          | inr hsuffix => exact first hsuffix
  | @unrecorded t₁ event hmakes hlogs =>
      cases List.suffix_cons_iff.mp hsuffix with
      | inl hall =>
          obtain ⟨rfl, hbefore⟩ := List.cons.inj hall
          exact between hmakes hlogs hbefore
      | inr hsuffix => exact first hsuffix

/-- A change and its event, in tables whose keys are unique. -/
theorem course_changed {id : Uuid} {now : Time} (h : a.Makes env t step t₁ event)
    (hlogs : t₁.auditLogs = t.auditLogs) (hschema : (t₁.recorded event id now).Schema) :
    Course env t step a [t₁.recorded event id now, t₁, t] := by
  refine .changed h hlogs fun hmem => ?_
  have hnodup := hschema.nodup .auditLogs
  rw [Tables.recorded, Tables.rows_insert_self] at hnodup
  rw [← hlogs] at hmem
  exact (List.nodup_append.mp hnodup).2.2 _ hmem _ (List.mem_singleton_self _) rfl

theorem administration_course (ht : t.Schema) {a : Administration} {id : Uuid} {now : Time}
    {out : Except Error Response} {s : Solo} (h : (a.verdict t id now).Leads env t [] out s) :
    Course env t step (administration a) (s.committed :: s.before) := by
  have idle : ∀ {versions : List Tables}, (∀ write event r, a.verdict t id now ≠
      .change write event r) → (∀ v ∈ versions, v = t) →
      Course env t step (administration a) versions := fun hverdict hversions =>
    .kept (not_effective_of_verdict ht hverdict) fun v hv =>
      unrelated_of_eq (congrArg Tables.auditLogs (hversions v hv))
  cases hv : a.verdict t id now with
  | refuse e =>
      rw [hv] at h
      obtain ⟨-, hs⟩ := h
      rw [hs.committed, hs.before]
      exact idle (by simp [hv]) fun v hv => List.mem_singleton.mp hv
  | keep r =>
      rw [hv] at h
      obtain ⟨-, again, hagain, hs⟩ := h
      rw [hs.committed, hs.before, List.append_nil]
      exact idle (by simp [hv]) fun v hv => (List.mem_cons.mp hv).elim (fun h => h) (hagain v)
  | change w event r =>
      rw [hv] at h
      have hchanges := Administration.changes_of_verdict hv
      obtain ⟨hok, h⟩ := h
      split at h
      · obtain ⟨-, eventId, eventTime, hs⟩ := h
        rw [hs.committed, hs.before]
        exact course_changed (.administration hchanges) hchanges.logs hs.schema
      · obtain ⟨-, hs⟩ := h
        rw [hs.committed, hs.before]
        exact .unrecorded (.administration hchanges) hchanges.logs

/-- A call that records one event of another kind, or nothing. -/
theorem course_kept (hidle : ¬ a.Effective env t step) (h : ∀ v ∈ versions, v = t ∨
    ∃ event id now, event.action ≠ a.action ∧ v = t.recorded event id now) :
    Course env t step a versions := by
  refine .kept hidle fun v hv => ?_
  cases h v hv with
  | inl heq => exact unrelated_of_eq (congrArg Tables.auditLogs heq)
  | inr hevent =>
      obtain ⟨event, id, now, hne, rfl⟩ := hevent
      exact (unrelated_of_eq rfl).recorded event hne id now

theorem register_course {email password : String} {out : Except Error RegisterResponse} {s : Solo}
    (h : Registration env t email out versions) (hleaves : s.Leaves env versions) :
    Course env t step (register email password) versions := by
  cases h with
  | refused hfits =>
      refine course_kept (fun heffective => ?_) fun v hv => .inl (List.mem_singleton.mp hv)
      obtain ⟨_, _, hmakes⟩ := heffective
      cases hmakes with
      | register hfits' _ _ _ => rw [hfits] at hfits'; cases hfits'
  | duplicate hkey id now =>
      refine course_kept (fun heffective => ?_) fun v hv => ?_
      · obtain ⟨_, _, hmakes⟩ := heffective
        cases hmakes with
        | register _ hfree _ _ => exact hfree hkey
      · simp only [List.mem_cons, List.not_mem_nil, or_false] at hv
        exact hv.symm.imp (fun h => h) fun h =>
          ⟨registrationFailed email, id, now, fun heq => (nomatch heq), h⟩
  | registered hfits hfree hid hemail ht₁ id now =>
      subst ht₁
      exact course_changed (.register hfits hfree hid hemail) rfl hleaves.schema

section Tokens
variable {x : String} {m : Nat} {s : Solo}

/-- A string that no live token has, or more than one, does not log out. -/
theorem logout_idle (h : ∀ T, t.Presents env x T → T.revokedAt ≠ none) :
    ¬ (logout (.text x)).Effective env t step := by
  intro heffective
  obtain ⟨_, _, hmakes⟩ := heffective
  cases hmakes with
  | logout hT hlive => exact h _ hT hlive

theorem logout_course {out : Except Error Unit}
    (h : Farewell env t x step m out versions) (hleaves : s.Leaves env versions) :
    Course env t step (logout (.text x)) versions := by
  have kept : (∀ T, t.Presents env x T → T.revokedAt ≠ none) →
      Course env t step (logout (.text x)) [t] := fun hnone =>
    course_kept (logout_idle hnone) fun v hv => .inl (List.mem_singleton.mp hv)
  cases h with
  | ambiguous hT hT' hne hash hash' =>
      exact kept fun T₀ hT₀ => absurd ((hT₀.only _ hT hash).trans (hT₀.only _ hT' hash').symm) hne
  | unknown hnone => exact kept fun T hT => absurd hT.hash (hnone T hT.mem)
  | again hT hrevoked => exact kept fun T' hT' => hT'.only _ hT.mem hT.hash ▸ hrevoked
  | loggedOut hT hlive hm ht₁ id now =>
      subst ht₁
      exact course_changed (.logout hT hlive) rfl hleaves.schema

/-- Only a live token in time, of an active user, is rotated. -/
theorem refresh_idle (h : ∀ T, t.Presents env x T → T.revokedAt = none →
    env.clock (step + 1) < T.expiresAt → ¬ t.Active T.userId) :
    ¬ (refresh (.text x)).Effective env t step := by
  intro heffective
  obtain ⟨_, _, hmakes⟩ := heffective
  cases hmakes with
  | refresh hT hlive hvalid howner _ _ => exact h _ hT hlive hvalid howner

theorem refresh_course {out : Except Error TokenResponse}
    (h : Renewal env t x step m out versions) (hleaves : s.Leaves env versions) :
    Course env t step (refresh (.text x)) versions := by
  have rejected : ∀ {event : AuditRecord} {id : Uuid} {now : Time},
      (∀ T, t.Presents env x T → T.revokedAt = none → env.clock (step + 1) < T.expiresAt →
        ¬ t.Active T.userId) → event.action ≠ .refreshTokenRotated →
      Course env t step (refresh (.text x)) [t.recorded event id now, t] := by
    intro event id now hidle hne
    refine course_kept (refresh_idle hidle) fun v hv => ?_
    simp only [List.mem_cons, List.not_mem_nil, or_false] at hv
    exact hv.symm.imp (fun h => h) fun h => ⟨event, id, now, hne, h⟩
  cases h with
  | ambiguous hT hT' hne hash hash' =>
      exact course_kept (refresh_idle fun T₀ hT₀ =>
        absurd ((hT₀.only _ hT hash).trans (hT₀.only _ hT' hash').symm) hne)
        fun v hv => .inl (List.mem_singleton.mp hv)
  | unknown hnone _ _ =>
      exact rejected (fun T hT => absurd hT.hash (hnone T hT.mem)) fun heq => nomatch heq
  | dead hT hrevoked _ _ _ | reused hT hrevoked _ _ _ _ =>
      exact rejected (fun T' hT' hlive => absurd (hT.only _ hT'.mem hT'.hash ▸ hlive) hrevoked)
        fun heq => nomatch heq
  | expired hT _ hexpired _ _ =>
      exact rejected (fun T' hT' _ hvalid =>
        absurd (hT.only _ hT'.mem hT'.hash ▸ hvalid) (not_lt_of_ge hexpired)) fun heq => nomatch heq
  | ownerless hT _ _ howner _ _ =>
      exact rejected (fun T' hT' _ _ => hT.only _ hT'.mem hT'.hash ▸ howner) fun heq => nomatch heq
  | @familyRevoked T L next hT hrevoked hnext hleaf hlive k hk t₁ t₂ ht₁ id id' now now' ht₂ =>
      subst ht₁ ht₂
      refine .kept (refresh_idle fun T' hT' hlive =>
        absurd (hT.only _ hT'.mem hT'.hash ▸ hlive) hrevoked) fun v hv => ?_
      have hrevokes : Unrelated t (refresh (.text x))
        ((Write.setRevokedAt L.id (env.clock k)).apply t) :=
        unrelated_of_eq rfl
      have hdetected := hrevokes.recorded (AuthService.reuseDetected T false)
        (fun heq => nomatch heq) id now
      simp only [List.mem_cons, List.not_mem_nil, or_false] at hv
      rcases hv with rfl | rfl | rfl | rfl
      · exact hdetected.recorded (AuthService.familyRevoked T L) (fun heq => nomatch heq) id' now'
      · exact hdetected
      · exact hrevokes
      · exact unrelated_of_eq rfl
  | @rotated T hT hlive hvalid howner k j i hk hj hi childId hid child hchild t₁ ht₁ accessToken
      id now =>
      subst ht₁
      have hcolumns : child.id = childId ∧ child.userId = T.userId ∧ child.revokedAt = none ∧
        child.replacedBy = none :=
        hchild ▸ ⟨rfl, rfl, rfl, rfl⟩
      exact course_changed (.refresh hT hlive hvalid howner (hcolumns.1 ▸ hid) hcolumns.2) rfl
        hleaves.schema

end Tokens

/-- A string that cannot be hashed is refused before the first statement. -/
theorem surrogate_course {s : String} {c : Fin 2048} {x : PyStr} :
    Course env t step (refresh (.surrogate s c x)) [t] ∧
      Course env t step (logout (.surrogate s c x)) [t] := by
  refine ⟨course_kept (fun heffective => ?_) fun v hv => .inl (List.mem_singleton.mp hv),
    course_kept (fun heffective => ?_) fun v hv => .inl (List.mem_singleton.mp hv)⟩
  all_goals
    obtain ⟨_, _, hmakes⟩ := heffective
    cases hmakes

/-- The versions of the tables that a call commits until it is cut off. -/
theorem exists_course (hp : p.Sound) (hcut : p.Cut a.request n w) : ∃ versions before,
    Course env p.tables p.world.trace.length a versions ∧
      w.commits p.threads.length = before.length ∧ (w.shared.state :: before) <:+ versions := by
  have ht := hp.inv.schema
  cases a with
  | administration a =>
      obtain ⟨id, now, out, s, -, hends, hleads⟩ := a.ends hp.settled
      obtain ⟨before, hcommits, hsuffix⟩ := hp.cut hends hcut
      exact ⟨_, before, administration_course ht hleads, hcommits, hsuffix⟩
  | register email password =>
      obtain ⟨out, s, versions, before, hregistration, hleaves, hcommits, hsuffix⟩ :=
        hp.register_cut hcut
      exact ⟨versions, before, register_course hregistration hleaves, hcommits, hsuffix⟩
  | refresh x =>
      cases x with
      | text x =>
          obtain ⟨out, s, versions, before, hrenewal, hleaves, hcommits, hsuffix⟩ :=
            hp.refresh_cut hcut
          exact ⟨versions, before, refresh_course hrenewal hleaves, hcommits, hsuffix⟩
      | surrogate s c x =>
          have hends : Ends env (call env (.refresh (.surrogate s c x)))
            (.start p.world.trace.length p.tables) (.error .unicodeEncodeError)
            (.start p.world.trace.length p.tables) := rfl
          obtain ⟨before, hcommits, hsuffix⟩ := hp.cut_leaves hends hp.settled.leaves hcut
          exact ⟨_, before, surrogate_course.1, hcommits, hsuffix⟩
  | logout x =>
      cases x with
      | text x =>
          obtain ⟨out, s, versions, before, hfarewell, hleaves, hcommits, hsuffix⟩ :=
            hp.logout_cut hcut
          exact ⟨versions, before, logout_course hfarewell hleaves, hcommits, hsuffix⟩
      | surrogate s c x =>
          have hends : Ends env (call env (.logout (.surrogate s c x)))
            (.start p.world.trace.length p.tables) (.error .unicodeEncodeError)
            (.start p.world.trace.length p.tables) := rfl
          obtain ⟨before, hcommits, hsuffix⟩ := hp.cut_leaves hends hp.settled.leaves hcut
          exact ⟨_, before, surrogate_course.2, hcommits, hsuffix⟩

end Audited

/-- Wherever a call is cut off, its change and its event are both committed or neither is, unless
the call has something to change and just one of the two transactions was committed. -/
theorem event_with_change_iff (hp : p.Sound) {a : Audited} (hcut : p.Cut a.request n w) :
    a.Together env p.tables p.world.trace.length w.shared.state ↔
      ¬ (a.Effective env p.tables p.world.trace.length ∧ w.commits p.threads.length = 1) := by
  obtain ⟨versions, before, hcourse, hcommits, hsuffix⟩ := Audited.exists_course hp hcut
  rw [hcommits]
  exact hcourse.cut hp.inv.schema hsuffix

/-- User 3 becomes a member of the organization. -/
def memberAddition : Audited := .administration (.addMember ⟨3⟩ ⟨9⟩ ⟨1⟩)

/-- Between the two commits of the addition of a member, and after them. -/
theorem event_with_change_iff_smallTables :
    (∃ w, (Calls.fresh plainEnvironment smallTables).Cut memberAddition.request 6 w ∧
      ¬ memberAddition.Together plainEnvironment smallTables 0 w.shared.state) ∧
    ∃ w, (Calls.fresh plainEnvironment smallTables).Cut memberAddition.request 9 w ∧
      memberAddition.Together plainEnvironment smallTables 0 w.shared.state := by
  have hsound := Calls.sound_fresh smallTables_ready
  have heffective : memberAddition.Effective plainEnvironment smallTables 0 :=
    ⟨(Write.insert .memberships ⟨⟨0⟩, ⟨3⟩, ⟨9⟩, 0⟩).apply smallTables, _,
      .administration (.addMember (by decide) (by decide) (by decide))⟩
  have hbetween : ∃ w, (Calls.fresh plainEnvironment smallTables).Cut memberAddition.request 6 w ∧
      decide (w.commits 0 = 1) = true :=
    Calls.exists_cut (f := fun w => decide (w.commits 0 = 1)) (by decide +kernel)
  have hafter : ∃ w, (Calls.fresh plainEnvironment smallTables).Cut memberAddition.request 9 w ∧
      decide (w.commits 0 = 2) = true :=
    Calls.exists_cut (f := fun w => decide (w.commits 0 = 2)) (by decide +kernel)
  obtain ⟨w, hw, hone⟩ := hbetween
  obtain ⟨w', hw', htwo⟩ := hafter
  refine ⟨⟨w, hw, fun htogether => ?_⟩, w', hw', ?_⟩
  · exact (event_with_change_iff hsound hw).mp htogether ⟨heffective, of_decide_eq_true hone⟩
  · refine (event_with_change_iff hsound hw').mpr fun hbetween => ?_
    have hcommits : w'.commits 0 = 2 := of_decide_eq_true htwo
    exact absurd (hcommits.symm.trans hbetween.2) (by decide)

/-- A member is added, and the process stops before the event is recorded. -/
theorem change_without_event : smallTables.Ready plainEnvironment ∧
    ∃ w, (Calls.fresh plainEnvironment smallTables).Cut (.addMember ⟨3⟩ ⟨9⟩ ⟨1⟩) 6 w ∧
      (⟨⟨4⟩, ⟨3⟩, ⟨9⟩, 0⟩ ∈ w.shared.state.memberships ∧ w.shared.state.auditLogs = []) ∧
      ¬ memberAddition.Together plainEnvironment smallTables 0 w.shared.state := by
  have hcut : ∃ w, (Calls.fresh plainEnvironment smallTables).Cut (.addMember ⟨3⟩ ⟨9⟩ ⟨1⟩) 6 w ∧
      decide (w.shared.state = smallTables.insert .memberships ⟨⟨4⟩, ⟨3⟩, ⟨9⟩, 0⟩) = true :=
    Calls.exists_cut
      (f := fun w => decide (w.shared.state = smallTables.insert .memberships ⟨⟨4⟩, ⟨3⟩, ⟨9⟩, 0⟩))
      (by decide +kernel)
  obtain ⟨w, hcut, hw⟩ := hcut
  have hstate := of_decide_eq_true hw
  have hmakes : memberAddition.Makes plainEnvironment smallTables 0
      (smallTables.insert .memberships ⟨⟨4⟩, ⟨3⟩, ⟨9⟩, 0⟩)
      (OrganizationService.memberEvent .organizationMemberAdded ⟨3⟩ ⟨9⟩ ⟨1⟩) :=
    .administration (.addMember (by decide) (by decide) (by decide))
  exact ⟨smallTables_ready, w, hcut, ⟨hstate ▸ by decide, hstate ▸ rfl⟩,
    hstate ▸ Audited.not_together hmakes rfl⟩

end SecureIam
