import SecureIam.Access.Truthful
import SecureIam.Api.Mediation

/-!
The audit log over HTTP: an event of an addition is true, and a request that succeeds has told
whatever it has changed.
-/
namespace SecureIam.Api
open Lib Program
variable {env : Environment} {t t₀ t' : Tables} {i : Nat} {req : HttpRequest} {l l' : Session}
  {u w w' : History env HttpRequest} {route : Route}

/-- Whoever calls, the route makes one of the eight calls, or whoever calls, another one. -/
theorem Route.request_cases (route : Route) :
    (∃ a : Uuid → Administration, ∀ caller, route.request caller = (a caller).request) ∨
      ∀ caller, (route.request caller).administration = none := by
  cases route with
  | createRole n d o => exact .inl ⟨.createRole n d o, fun _ => rfl⟩
  | assignPermissionToRole x y => exact .inl ⟨.assignPermissionToRole x y, fun _ => rfl⟩
  | removePermissionFromRole x y => exact .inl ⟨.removePermissionFromRole x y, fun _ => rfl⟩
  | assignRoleToUser x y o => exact .inl ⟨.assignRole x y o, fun _ => rfl⟩
  | revokeRoleFromUser x y o => exact .inl ⟨.revokeRole x y o, fun _ => rfl⟩
  | createOrganization n => exact .inl ⟨.createOrganization n, fun _ => rfl⟩
  | addOrganizationMember o x => exact .inl ⟨.addMember x o, fun _ => rfl⟩
  | removeOrganizationMember o x => exact .inl ⟨.removeMember x o, fun _ => rfl⟩
  | _ => exact .inr fun _ => rfl

theorem administration_of_request (a : Administration) : a.request.administration = some a := by
  cases a <;> rfl

section Rules

theorem wp_answeredRecounts (ht₀ : t₀.Ready env) {a : Uuid → Administration}
    (ha : ∀ caller, route.request caller = (a caller).request) (caller : Uuid)
    (hl : l.pending = []) :
    (ledger env t₀ (honesty env HttpRequest)).wp i req (Extends u i fun _ => Recounts)
      (answered env route caller) l u := by
  refine wp_replied (wp_extends_handle (fun e l' w hl' => ?_)
    (ha caller ▸ (a caller).recounts ht₀ hl))
  split <;> exact wp_extends_raise hl'

theorem wp_handlerRecounts (ht₀ : t₀.Ready env) {a : Uuid → Administration}
    (ha : ∀ caller, req.route.request caller = (a caller).request) :
    (ledger env t₀ (honesty env HttpRequest)).wp i req (Extends u i fun _ => Recounts)
      (handler env req) {} u := by
  have hadmin : (req.route.request ⟨0⟩).administration = some (a ⟨0⟩) := by
    rw [ha, administration_of_request]
  obtain ⟨-, resource, hguard⟩ := Route.administration_guard hadmin
  rw [handler_permission hguard]
  exact wp_recounts_first (requirePermission_uses _ _ _) rfl fun user l w hl =>
    wp_answeredRecounts ht₀ ha user.id hl

/-- A request writes nothing but what its call names, for some caller. -/
theorem handler_confined (ht₀ : t₀.Ready env) :
    Confined env t₀ (fun v => ∃ caller, (req.route.request caller).Issues v) (handler env req) := by
  have hanswered : ∀ caller, Confined env t₀
      (fun v => ∃ caller, (req.route.request caller).Issues v) (answered env req.route caller) :=
    fun caller => (answered_confined ht₀ req.route caller).mono fun v hv => ⟨caller, hv⟩
  cases hguard : req.route.guard with
  | anyone =>
      rw [handler_anyone hguard ⟨0⟩]
      exact hanswered ⟨0⟩
  | user =>
      rw [handler_user hguard]
      exact confined_bind (confined_of_all (within_reads (getCurrentUser_uses _))) fun user =>
        hanswered user.id
  | permission resource action =>
      rw [handler_permission hguard]
      exact confined_bind (confined_of_all (within_reads (requirePermission_uses _ _ _)))
        fun user => hanswered user.id

/-- A request whose writes are all allowed from the start. -/
theorem respond_allowed {L : Licence env HttpRequest} (ht₀ : t₀.Ready env)
    (hmay : ∀ v, (∃ caller, (req.route.request caller).Issues v) → L.may req (u.own i) v) :
    (ledger env t₀ L).wp i req (fun _ _ _ => True) (respond env req) {} u := by
  refine wp_respond (R := fun _ _ => True) (fun _ _ => trivial) (fun _ _ => trivial) ?_
  refine (handler_confined ht₀ HttpRequest L hmay (Abides.of_nil rfl)).mono ?_
  exact fun _ _ _ _ _ h => ⟨⟨h.licensed, [], (List.append_nil _).symm⟩, trivial⟩

/-- The other calls record no addition. -/
theorem honest_of_issues {caller : Uuid} {es : List (Entry (machine env) HttpRequest)} {v : Write}
    (hadmin : (route.request caller).administration = none) (h : (route.request caller).Issues v) :
    Honest es v := by
  intro x hx hadd
  subst hx
  have hother := Request.event_of_plain hadmin h
  simp only [additions, List.mem_cons, List.not_mem_nil, or_false] at hadd
  obtain hadd | hadd | hadd | hadd | hadd := hadd
  · exact absurd hadd (hother (.createRole "" none none caller))
  · exact absurd hadd (hother (.assignRole caller caller none caller))
  · exact absurd hadd (hother (.assignPermissionToRole caller caller caller))
  · exact absurd hadd (hother (.createOrganization "" caller))
  · exact absurd hadd (hother (.addMember caller caller caller))

/-- What a request has told by its answer, if it makes one of the eight calls. -/
def Told (req : HttpRequest) (i : Nat) :
    Protocol.Post (machine env) HttpRequest Error HttpResponse := fun out _ w =>
  ∀ response, out = .ok response → ∀ a : Uuid → Administration,
    (∀ caller, req.route.request caller = (a caller).request) → Recounts (w.own i)

theorem wp_toldAdministration (ht₀ : t₀.Ready env) {a : Uuid → Administration}
    (ha : ∀ caller, req.route.request caller = (a caller).request) (hown : u.own i = []) :
    (ledger env t₀ (honesty env HttpRequest)).wp i req (Told req i) (respond env req) {} u := by
  refine Protocol.wp_ensure ((wp_handlerRecounts ht₀ ha).mono fun out l' w' _ _ h => ?_)
    fun _ h hlater response hout b hb => hlater.1.own ▸ h response hout b hb
  obtain ⟨hl', new, hown', hnew⟩ := h
  have hrollback : App.rollback.All (Stmt.Within fun _ => False) :=
    within_reads (uses_issue (o := .rollback) trivial)
  refine (wp_still hrollback hl').mono fun stop l'' w'' _ _ h => ?_
  obtain ⟨-, new', hown'', hstill⟩ := h
  cases stop with
  | error e =>
      intro response hout
      cases hout
  | ok _ =>
      intro response hout _ _
      rw [hown'', hown', hown, List.nil_append]
      exact (hnew response hout).append (hstill () rfl).recounts

theorem respond_told (ht₀ : t₀.Ready env) :
    (ledger env t₀ (honesty env HttpRequest)).Serves Told (respond env) := by
  intro req i w hinv hnew
  cases req.route.request_cases with
  | inl hadmin =>
      obtain ⟨a, ha⟩ := hadmin
      have hown : w.own i = [] := List.filter_eq_nil_iff.mpr fun e he => by simpa using hnew e he
      exact wp_toldAdministration ht₀ ha hown
  | inr hplain =>
      have hmay : ∀ v, (∃ caller, (req.route.request caller).Issues v) →
          (honesty env HttpRequest).may req (w.own i) v := by
        intro v hv
        obtain ⟨caller, hissues⟩ := hv
        exact honest_of_issues (hplain caller) hissues
      refine (respond_allowed ht₀ hmay).mono ?_
      intro out l' w' _ _ _ response _ a ha
      have hadmin := hplain ⟨0⟩
      rw [ha, administration_of_request] at hadmin
      cases hadmin

end Rules

section Runs
variable {p : Server env} {e : Entry (machine env) HttpRequest} {x : AuditLog}

theorem journal_of_rows (h : ∀ τ ∈ accessTables, t'.rows τ = t.rows τ) :
    t'.journal = t.journal := by
  have hroles : t'.roles = t.roles := h .roles (by decide)
  have hrolePermissions : t'.rolePermissions = t.rolePermissions := h .rolePermissions (by decide)
  have huserRoles : t'.userRoles = t.userRoles := h .userRoles (by decide)
  have horganizations : t'.organizations = t.organizations := h .organizations (by decide)
  have hmemberships : t'.memberships = t.memberships := h .memberships (by decide)
  simp only [Tables.journal, hroles, hrolePermissions, huserRoles, horganizations, hmemberships]

/-- Only the eight calls change anything. -/
theorem still_of_plain (ht : t.Ready env) (hr : Reaches (respond env) (Server.started t) p)
    (he : e ∈ p.world.trace)
    (hplain : ∀ caller, (e.request.route.request caller).administration = none) : ¬ e.Alters := by
  obtain ⟨hschema, ws, hvalid, hview, hmay⟩ := Server.published ht hr he
  have hpublished : schema.Published ((mediation env).may e.request
      ((p.world.own e.pid).filter (·.step < e.step))) e.before.state e.after.state :=
    ⟨ws, hmay, hvalid, hview⟩
  have hsame : e.after.state.journal = e.before.state.journal := by
    refine hpublished.across (E := fun t t' : Tables => t'.journal = t.journal) hschema
      (fun _ => rfl) (fun h h' => h'.trans h) fun v t _ _ hv => journal_of_rows fun τ hτ => ?_
    refine Write.rows_of_table fun htable => ?_
    obtain ⟨a, ⟨hrequest, -⟩, -⟩ := mandated_of_may hv (.inl (htable ▸ hτ))
    have hadmin := hplain a.actor
    rw [hrequest, administration_of_request] at hadmin
    cases hadmin
  exact fun halters => halters hsame

/-- Whatever is called in whatever order: an event of a role, an assignment, a grant, an
organization or a member that is added tells a change that its own request has made before. -/
theorem additions_told_truly (ht : t.Ready env) (hr : Reaches (respond env) (Server.started t) p)
    (he : e ∈ p.world.trace) (hx : e.Records x) (hadd : x.action ∈ additions) :
    ∃ e' ∈ p.world.own e.pid, e'.step < e.step ∧ e'.Alters ∧ e'.ToldBy x := by
  obtain ⟨-, ws, -, hview, hmay⟩ := Server.published_of ht (respond_told ht)
    (fun h hsub x hx hadd => by
      obtain ⟨e', he', hrest⟩ := h x hx hadd
      exact ⟨e', hsub he', hrest⟩) hr he
  have hinsert := insertion_of_view (τ := .auditLogs) (fun _ => rfl) (hview ▸ hx.1) hx.2
  obtain ⟨e', he', htold⟩ := hmay _ hinsert x rfl hadd
  obtain ⟨hown, hstep⟩ := List.mem_filter.mp he'
  exact ⟨e', hown, of_decide_eq_true hstep, htold⟩

theorem additions_told_truly_managed : ∃ e ∈ managed.world.trace, ∃ x, x.action = .roleCreated ∧
    e.Records x ∧ ∃ e' ∈ managed.world.own e.pid, e'.step < e.step ∧ e'.Alters ∧ e'.ToldBy x := by
  have hrecorded : ∃ e ∈ managed.world.trace, ∃ x ∈ e.after.state.auditLogs,
      x ∉ e.before.state.auditLogs ∧ x.action = .roleCreated := by decide +kernel
  obtain ⟨e, he, x, hx, hnew, haction⟩ := hrecorded
  exact ⟨e, he, x, haction, ⟨hx, hnew⟩, additions_told_truly managedTables_ready
    (Pool.played_reaches _ (Server.started managedTables) _) he ⟨hx, hnew⟩ (haction ▸ by decide)⟩

/-- Whatever is called in whatever order: a request that succeeds has recorded an event that tells
each change that it has made, and no other route changes anything. -/
theorem changes_recorded (ht : t.Ready env) (hr : Reaches (respond env) (Server.started t) p) :
    (∀ (i : Nat) (th : Thread (machine env) HttpRequest Error HttpResponse),
      p.threads[i]? = some th → ∀ response, th.outcome = some (.ok response) →
      ∀ e ∈ p.world.own i, e.Alters → ∃ e' ∈ p.world.own i, ∃ x, e'.Records x ∧ e.ToldBy x) ∧
    ∀ e ∈ p.world.trace, (∀ caller, (e.request.route.request caller).administration = none) →
      ¬ e.Alters := by
  refine ⟨fun i th hth response hout e he halters => ?_, fun e he => still_of_plain ht hr he⟩
  obtain ⟨hmem, hpid⟩ := World.mem_own.mp he
  have hstarted : (Server.started t : Server env).Owned := fun e he => absurd he List.not_mem_nil
  obtain ⟨th', hth', hrequest⟩ := hr.owned hstarted e hmem
  rw [hpid, hth, Option.some.injEq] at hth'
  subst hth'
  cases th.request.route.request_cases with
  | inl hadmin =>
      obtain ⟨a, ha⟩ := hadmin
      have hkept := (ledger_start ht.schema ht.undrawn).reaches (respond_told ht) hr
      exact hkept.outcome hth (Thread.code_of_outcome hout) response rfl a ha e he halters
  | inr hplain => exact absurd halters (still_of_plain ht hr hmem (hrequest ▸ hplain))

theorem changes_recorded_managed : ∃ e ∈ managed.world.own 0, e.Alters ∧
    ∃ e' ∈ managed.world.own 0, ∃ x, e'.Records x ∧ e.ToldBy x := by
  have hlook : (managed.threads[0]?.map fun th => th.outcome) =
      some (some (.ok (created (.role ⟨⟨10⟩, "auditor", none, false, none⟩)))) := by decide +kernel
  have halters : ∃ e ∈ managed.world.own 0,
      e.after.state.journal ≠ e.before.state.journal := by decide +kernel
  obtain ⟨th, hth, hout⟩ := Option.map_eq_some_iff.mp hlook
  obtain ⟨e, he, halters⟩ := halters
  exact ⟨e, he, halters, (changes_recorded managedTables_ready (Pool.played_reaches _
    (Server.started managedTables) _)).1 0 th hth _ hout e he halters⟩

end Runs

end SecureIam.Api
