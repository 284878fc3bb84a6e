import SecureIam.Api.Mediation

/-!
Where authority comes from: each assignment that exists was either there when the server
started or was made by somebody who held one. No route is a way around it, so a database without
assignments stays without them.
-/
namespace SecureIam.Api
open Lib
variable {env : Environment} {t : Tables} {p q : Server env} {ur : UserRole}
  {es es' : List (Entry (machine env) HttpRequest)}

/-- The assignment gives its user the permission, in the global scope. -/
def Confers (t : Tables) (resource action : String) (held : UserRole) : Prop :=
  held ∈ t.userRoles ∧ held.organizationId = none ∧
    ∃ x ∈ t.permissions, (x.resource = resource ∧ x.action = action) ∧
      ∃ rp ∈ t.rolePermissions, rp.roleId = held.roleId ∧ rp.permissionId = x.id

/-- The assignment was there from the start, or a request made it whose caller was authenticated
and then found to hold another one, with (user, manage), and so on back to the start. -/
inductive Delegated (t : Tables) (es : List (Entry (machine env) HttpRequest)) : UserRole → Prop
  | original {ur : UserRole} (h : ur ∈ t.userRoles) : Delegated t es ur
  | assigned {ur held : UserRole} {login look commit : Entry (machine env) HttpRequest}
      (hlogin : login ∈ es) (hlook : look ∈ es) (hcommit : commit ∈ es)
      (hpid : login.pid = commit.pid ∧ look.pid = commit.pid)
      (hstep : login.step < look.step ∧ look.step < commit.step)
      (hroute : commit.request.route =
        .assignRoleToUser ur.userId ur.roleId ur.organizationId)
      (hnew : ur ∈ commit.after.state.userRoles ∧ ur ∉ commit.before.state.userRoles)
      (hcaller : Authenticates login held.userId)
      (hheld : Confers look.before.state "user" "manage" held)
      (hdelegated : Delegated t es held) : Delegated t es ur

theorem Delegated.mono (h : Delegated t es ur) (hes : es ⊆ es') : Delegated t es' ur := by
  induction h with
  | original h => exact .original h
  | assigned hlogin hlook hcommit hpid hstep hroute hnew hcaller hheld _ ih =>
      exact .assigned (hes hlogin) (hes hlook) (hes hcommit) hpid hstep hroute hnew hcaller hheld ih

/-- A mandate rests on an assignment of its caller's. -/
theorem Mandate.held {resource action : String} {caller : Uuid}
    (h : Mandate es resource action caller) : ∃ login ∈ es, ∃ look ∈ es, ∃ held : UserRole,
      login.step < look.step ∧ held.userId = caller ∧ Authenticates login caller ∧
      Confers look.before.state resource action held := by
  obtain ⟨login, hlogin, active, -, look, hlook, hlt, hlt', hcaller, -, x, hx, hname, hgrants⟩ := h
  obtain ⟨held, hmem, ⟨hheld, hscope⟩, hcarried⟩ := hgrants
  have hscope : held.organizationId = none := hscope.elim id id
  exact ⟨login, hlogin, look, hlook, held, hlt.trans hlt', hheld, hcaller, hmem, hscope, x, hx,
    hname, hcarried⟩

/-- The statements before the last one of a trace. -/
theorem earlier_of_last {w w' : History env HttpRequest} {e x : Entry (machine env) HttpRequest}
    (htrace : w'.trace = w.trace ++ [e]) (hx : x ∈ (w'.own e.pid).filter (·.step < e.step)) :
    x ∈ w.trace ∧ x.pid = e.pid ∧ x.step < e.step := by
  obtain ⟨hown, hlt⟩ := List.mem_filter.mp hx
  have hlt : x.step < e.step := of_decide_eq_true hlt
  obtain ⟨hmem, hpid⟩ := World.mem_own.mp hown
  rw [htrace] at hmem
  refine ⟨(List.mem_append.mp hmem).resolve_right fun hlast => ?_, hpid, hlt⟩
  rw [List.mem_singleton.mp hlast] at hlt
  exact Nat.lt_irrefl _ hlt

/-- A new assignment is one that the route of its request names, and its caller was mandated. -/
theorem assigned_of_published (ht : t.Ready env)
    (hr : Reaches (respond env) (Server.started t) p) {e : Entry (machine env) HttpRequest}
    (he : e ∈ p.world.trace) (hrow : ur ∈ e.after.state.userRoles)
    (hnew : ur ∉ e.before.state.userRoles) :
    e.request.route = .assignRoleToUser ur.userId ur.roleId ur.organizationId ∧
      ∃ caller, Mandate ((p.world.own e.pid).filter (·.step < e.step)) "user" "manage" caller := by
  obtain ⟨hschema, ws, hvalid, hview, hmay⟩ := Server.published ht hr he
  rw [hview] at hrow
  have hinsert := insertion_of_view (τ := .userRoles) (fun _ => rfl) hrow hnew
  obtain ⟨a, ⟨hcall, resource, hguard, hmandate⟩, hfootprint⟩ :=
    mandated_of_may (hmay _ hinsert) (.inl (by simp [Write.table, accessTables]))
  cases a with
  | assignRole u r o actor =>
      have hmatches : ur.Matches u r o := hfootprint.resolve_right id
      obtain ⟨rfl, rfl, rfl⟩ := hmatches
      cases hroute : e.request.route with
      | assignRoleToUser u r o =>
          rw [hroute] at hcall hguard
          cases hcall
          cases hguard
          exact ⟨rfl, actor, hmandate⟩
      | _ =>
          rw [hroute] at hcall
          cases hcall
  | _ => exact (hfootprint.elim id id).elim

/-- Every assignment goes back to one that was there from the start, by holders of
(user, manage) all the way, whatever requests are served in whatever order. -/
theorem authority_delegated (ht : t.Ready env)
    (hr : Reaches (respond env) (Server.started t) p) :
    (∀ ur ∈ p.tables.userRoles, Delegated t p.world.trace ur) ∧
      ∀ e ∈ p.world.trace, ∀ ur ∈ e.before.state.userRoles, Delegated t p.world.trace ur := by
  induction hr with
  | refl => exact ⟨fun ur hur => .original hur, fun e he => by cases he⟩
  | @tail q p hr hs ih =>
      cases hs with
      | spawn req => exact ih
      | @exec i th o k r w l hth hcode hexec =>
          have hr' := hr.tail (.exec hth hcode hexec)
          have htrace := World.exec_trace hexec
          have hsubset : q.world.trace ⊆ w.trace := htrace ▸ List.subset_append_left _ _
          constructor
          · intro ur hur
            by_cases hold : ur ∈ q.tables.userRoles
            · exact (ih.1 ur hold).mono hsubset
            · have hmem : ⟨q.world.trace.length, i, th.request, o, r, q.world.shared, w.shared⟩ ∈
                  w.trace := htrace ▸ List.mem_append_right _ (List.mem_singleton_self _)
              obtain ⟨hroute, caller, hmandate⟩ := assigned_of_published ht hr' hmem hur hold
              obtain ⟨login, hlogin, look, hlook, held, hlt, rfl, hcaller, hconfers⟩ :=
                hmandate.held
              obtain ⟨hlogin, hpid, -⟩ := earlier_of_last htrace hlogin
              obtain ⟨hlook, hpid', hbefore⟩ := earlier_of_last htrace hlook
              exact .assigned (hsubset hlogin) (hsubset hlook) hmem ⟨hpid, hpid'⟩ ⟨hlt, hbefore⟩
                hroute ⟨hur, hold⟩ hcaller hconfers
                ((ih.2 look hlook held hconfers.1).mono hsubset)
          · intro e he ur hur
            rw [htrace] at he
            cases List.mem_append.mp he with
            | inl he => exact (ih.2 e he ur hur).mono hsubset
            | inr he =>
                obtain rfl := List.mem_singleton.mp he
                exact (ih.1 ur hur).mono hsubset

/-- Three users, of whom the first may assign roles everywhere. -/
def handedTables : Tables :=
  { smallTables with
    users := ⟨⟨17⟩, "c", "p", true, 0, none⟩ :: smallTables.users
    permissions := [⟨⟨11⟩, "user", "manage", none⟩]
    userRoles := [⟨⟨13⟩, ⟨1⟩, ⟨5⟩, none⟩] }

theorem handedTables_ready : handedTables.Ready subjectEnvironment := by
  refine ⟨⟨fun τ => ?_, fun τ => ?_⟩, fun m τ => ?_⟩
  · cases τ <;> decide
  · cases τ <;> decide
  · cases τ <;> simp [handedTables, smallTables, Tables.hasKey, Tables.rows, LockKey.table,
      Table.keys, subjectEnvironment, plainEnvironment] <;> omega

/-- The first hands the role on to the second, and the second to the third. -/
def handedOn : Server subjectEnvironment :=
  Pool.played (respond subjectEnvironment) (Server.started handedTables)
    [.spawn ⟨some "Bearer 1", .assignRoleToUser ⟨3⟩ ⟨5⟩ none⟩, .finish 0,
      .spawn ⟨some "Bearer 3", .assignRoleToUser ⟨17⟩ ⟨5⟩ none⟩, .finish 1]

theorem authority_delegated_handedOn :
    handedOn.tables.userRoles.map (·.userId) = [⟨1⟩, ⟨3⟩, ⟨17⟩] ∧
    ∀ ur ∈ handedOn.tables.userRoles, Delegated handedTables handedOn.world.trace ur :=
  ⟨by decide +kernel,
    (authority_delegated handedTables_ready (Pool.played_reaches _ (Server.started handedTables)
      _)).1⟩

theorem rows_of_view {τ : Table} {ws : List Write} (h : ∀ v ∈ ws, v.table ≠ τ) :
    (Store.view (T := tableStore) ws t).rows τ = t.rows τ := by
  induction ws generalizing t with
  | nil => rfl
  | cons v ws ih =>
      have hrest := ih (t := v.apply t) fun v hv => h v (List.mem_cons_of_mem _ hv)
      exact hrest.trans (Write.rows_of_table (h v List.mem_cons_self))

/-- While nobody holds anything, the tables of access and their events stay as they are. -/
theorem sealed (ht : t.Ready env) (hnone : t.userRoles = [])
    (hr : Reaches (respond env) (Server.started t) p) :
    (∀ τ ∈ accessTables, p.tables.rows τ = t.rows τ) ∧
      (∀ x ∈ p.tables.auditLogs, ∀ a : Administration, x.action = a.action → x ∈ t.auditLogs) ∧
      ∀ e ∈ p.world.trace, e.before.state.userRoles = [] := by
  induction hr with
  | refl => exact ⟨fun _ _ => rfl, fun x hx _ _ => hx, fun e he => by cases he⟩
  | @tail q p hr hs ih =>
      obtain ⟨hrows, hevents, hbefore⟩ := ih
      cases hs with
      | spawn req => exact ⟨hrows, hevents, hbefore⟩
      | @exec i th o k r w l hth hcode hexec =>
          have hr' := hr.tail (.exec hth hcode hexec)
          have htrace := World.exec_trace hexec
          have hmem : ⟨q.world.trace.length, i, th.request, o, r, q.world.shared, w.shared⟩ ∈
              w.trace := htrace ▸ List.mem_append_right _ (List.mem_singleton_self _)
          obtain ⟨-, ws, -, hview, hmay⟩ := Server.published ht hr' hmem
          have hview : w.shared.state = Store.view (T := tableStore) ws q.tables := hview
          have hunmandated : ∀ v ∈ ws, v.table ∉ accessTables ∧
              ∀ x, v = .insert .auditLogs x → ∀ a : Administration, x.action ≠ a.action := by
            intro v hv
            refine ⟨fun htable => ?_, fun x hx a ha => ?_⟩
            all_goals
              obtain ⟨a, ⟨-, resource, -, hmandate⟩, -⟩ := mandated_of_may (hmay v hv)
                (by first | exact .inl htable | exact .inr ⟨x, hx, a, ha⟩)
              obtain ⟨-, -, look, hlook, held, -, -, -, hheld, -⟩ := hmandate.held
              have hnobody := hbefore look (earlier_of_last htrace hlook).1
              simp [hnobody] at hheld
          refine ⟨fun τ hτ => ?_, fun x hx a ha => ?_, fun e he => ?_⟩
          · refine Eq.trans ?_ (hrows τ hτ)
            change w.shared.state.rows τ = q.tables.rows τ
            rw [hview]
            exact rows_of_view fun v hv hv' => (hunmandated v hv).1 (hv' ▸ hτ)
          · by_cases hold : x ∈ q.tables.auditLogs
            · exact hevents x hold a ha
            · have hx : x ∈ (Store.view (T := tableStore) ws q.tables).rows .auditLogs := hview ▸ hx
              have hinsert := insertion_of_view (τ := .auditLogs) (fun _ => rfl) hx hold
              exact absurd ha ((hunmandated _ hinsert).2 x rfl a)
          · rw [htrace] at he
            cases List.mem_append.mp he with
            | inl he => exact hbefore e he
            | inr he =>
                rw [List.mem_singleton.mp he]
                exact (hrows .userRoles (by decide)).trans hnone

/-- Then no request behind a permission succeeds. -/
theorem sealed_refuses (ht : t.Ready env) (hnone : t.userRoles = [])
    (hr : Reaches (respond env) (Server.started t) p) {i : Nat}
    {th : Thread (machine env) HttpRequest Error HttpResponse} (hth : p.threads[i]? = some th)
    {resource action : String} (hguard : th.request.route.guard = .permission resource action)
    (response : HttpResponse) : th.outcome ≠ some (.ok response) := by
  intro hout
  have hanswers := (Server.ledger_kept ht hr).outcome hth (Thread.code_of_outcome hout)
  obtain ⟨caller, hmet⟩ := hanswers response rfl
  rw [hguard] at hmet
  obtain ⟨-, -, look, hlook, held, -, -, -, hheld, -⟩ := Mandate.held hmet
  have hnobody := (sealed ht hnone hr).2.2 look (World.mem_own.mp hlook).1
  simp [hnobody] at hheld

end SecureIam.Api
