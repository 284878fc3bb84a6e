import SecureIam.Api.Delegation
import SecureIam.Api.History

/-!
A decision takes several queries, and others may come in between. Since no route activates or
deactivates anybody, each decision is nevertheless the one of a single moment of its request.
-/
namespace SecureIam.Api
open Lib Program
variable {env : Environment} {t t₀ : Tables} {i : Nat} {req : HttpRequest} {l l' : Session}
  {u w w' : History env HttpRequest} {resource action : String} {o : Option Uuid}

/-- What a request has learned of its caller by the time it is answered. -/
def Learned (es : List (Entry (machine env) HttpRequest)) (user : User)
    (e : Entry (machine env) HttpRequest) : Prop :=
  e ∈ es ∧ ∃ e₁ ∈ es, ∃ e₂ ∈ es, e₁.step < e₂.step ∧ e₂.step < e.step ∧
    Authenticates e₁ user.id ∧ user ∈ e₂.before.state.users

/-- An answer to a question about the caller is a decision that was taken on them. -/
def Decided (req : HttpRequest) (out : Except Error HttpResponse)
    (es : List (Entry (machine env) HttpRequest)) : Prop :=
  ∀ resource action o, req.route = .authorize resource action o → ∀ response,
    out = .ok response → ∃ user e d, Learned es user e ∧ DecidedAt e user resource action o d ∧
      response = ok (.decision d)

theorem Decided.mono {es es' : List (Entry (machine env) HttpRequest)}
    {out : Except Error HttpResponse} (h : Decided req out es) (hes : es ⊆ es') :
    Decided req out es' := by
  intro resource action o hroute response hout
  obtain ⟨user, e, d, hlearned, hd⟩ := h resource action o hroute response hout
  obtain ⟨he, e₁, h₁, e₂, h₂, hlearned⟩ := hlearned
  exact ⟨user, e, d, ⟨hes he, e₁, hes h₁, e₂, hes h₂, hlearned⟩, hd⟩

theorem wp_decided (hroute : req.route = .authorize resource action o) :
    (ledger env t₀ (mediation env)).wp i req
      (fun out l w => Abides (mediation env) (w.own i) i req l w ∧ Decided req out (w.own i))
      (handler env req) {} u := by
  have hraise : ∀ (e : Error) (l : Session) (w : History env HttpRequest), l.pending = [] →
      Abides (mediation env) (w.own i) i req l w ∧ Decided req (.error e) (w.own i) := by
    intro e l w hl
    exact ⟨Abides.of_nil hl, by simp [Decided]⟩
  have hhandler : handler env req = (getCurrentUser env req.authorization).bind fun user =>
      (AuthorizationService.authorize env user.id resource action o).bind fun d =>
        .ret (ok (.decision d)) := by
    simp only [handler, hroute]
    rfl
  rw [hhandler]
  refine wp_currentUser (by rw [hroute]; rfl) hraise fun user w l hl hmapped hfound => ?_
  refine wp_authorize hraise hl hmapped fun d w' l' hl' hsub hdecided => ?_
  obtain ⟨e, he, hle, hd⟩ := hdecided
  obtain ⟨e₁, h₁, e₂, h₂, hlt, hlt', hauthenticates, hmem⟩ := hfound
  intro w'' hlater
  have hown : w''.own i = w'.own i := hlater.1.own
  rw [hown]
  refine ⟨hown ▸ Abides.of_nil hl', fun resource' action' o' hroute' response hout => ?_⟩
  rw [hroute] at hroute'
  cases hroute'
  cases hout
  exact ⟨user, e, d, ⟨he, e₁, hsub h₁, e₂, hsub h₂, hlt, Nat.lt_of_lt_of_le hlt' hle,
    hauthenticates, hmem⟩, hd, rfl⟩

theorem respond_decided (ht₀ : t₀.Ready env) :
    (ledger env t₀ (mediation env)).Serves (fun req i out _ w => Decided req out (w.own i))
      (respond env) := by
  intro req i w hinv hnew
  refine wp_respond (R := Decided req) Decided.mono (fun e es => ?_) ?_
  · intro resource action o _ response hout
    cases hout
  · by_cases hroute : ∃ resource action o, req.route = .authorize resource action o
    · obtain ⟨resource, action, o, hroute⟩ := hroute
      exact wp_decided hroute
    · refine (wp_mediated ht₀).mono fun out l w _ _ h => ⟨h.1, ?_⟩
      intro resource action o heq
      exact absurd ⟨resource, action, o, heq⟩ hroute

/-- Everybody is as active later as they were. -/
theorem Grown.active_iff {user : User} (h : Grown t t₀) (ht₀ : t₀.Schema) (huser : user ∈ t.users) :
    t₀.Active user.id ↔ user.isActive = true := by
  have hmem : account user ∈ t₀.users.map account :=
    h.users.subset (List.mem_map_of_mem huser)
  obtain ⟨y, hy, heq⟩ := List.mem_map.mp hmem
  have hid : (account y).id = (account user).id := congrArg User.id heq
  have hactive : (account y).isActive = (account user).isActive := congrArg User.isActive heq
  constructor
  · intro h
    obtain ⟨x, hx, hxid, hxactive⟩ := h
    obtain rfl : x = y := ht₀.row_unique (τ := .users) (k := .primary .users user.id) hx hy
      (by simp [Table.keys, hxid]) (by simpa [Table.keys, account] using hid.symm)
    exact hactive.symm.trans hxactive
  · intro huserActive
    exact ⟨y, hy, hid, hactive.trans huserActive⟩

section Runs
variable {p : Server env} {e e' : Entry (machine env) HttpRequest}

/-- What one statement has found is still there for a later one. -/
theorem grown_between (ht : t.Ready env) (hr : Reaches (respond env) (Server.started t) p)
    (he : e ∈ p.world.trace) (he' : e' ∈ p.world.trace) (hle : e.step ≤ e'.step) :
    Grown e.before.state e'.before.state ∧ e'.before.state.Schema := by
  refine ⟨?_, (Server.published ht hr he').1⟩
  obtain hnone | ⟨q, q', hq, hstep, hq', hbefore, -, htrace⟩ := Reaches.entry hr he
  · cases hnone
  obtain hearlier | ⟨r, r', hr', hstep', hrest, hbefore', -, -⟩ := Reaches.entry hq' he'
  · have hplaced := (Server.ledger_kept ht (hq.tail hstep)).inv.1.placed
    have hstep : e.step = q.world.trace.length := hplaced _ _ (by simp [htrace])
    rw [htrace, List.mem_append, List.mem_singleton] at hearlier
    cases hearlier with
    | inl hearlier =>
        obtain ⟨n, hn⟩ := List.mem_iff_getElem?.mp hearlier
        have hlt := (List.getElem?_eq_some_iff.mp hn).1
        have hplace : e'.step = n := by
          refine hplaced n e' ?_
          rw [htrace, List.getElem?_append_left hlt, hn]
        omega
    | inr hsame => exact hsame ▸ .refl _
  · rw [← hbefore, ← hbefore']
    exact history_grows ht hq (.head hstep hr')

/-- Whatever requests are served in whatever order: the answer of `POST /authorize` is what the
tables say of its caller at one moment of that request, and so is each success behind a
permission. -/
theorem authorize_atomic (ht : t.Ready env)
    (hr : Reaches (respond env) (Server.started t) p)
    {th : Thread (machine env) HttpRequest Error HttpResponse} (hth : p.threads[i]? = some th)
    {response : HttpResponse} (hout : th.outcome = some (.ok response)) :
    (∀ resource action o, th.request.route = .authorize resource action o →
      ∃ caller, ∃ login ∈ p.world.own i, ∃ e ∈ p.world.own i, login.step < e.step ∧
        Authenticates login caller ∧ response = ok (.decision
          ⟨decide (e.before.state.Allows caller resource action o), resource, action, o⟩)) ∧
    ∀ resource action, th.request.route.guard = .permission resource action →
      ∃ caller, ∃ login ∈ p.world.own i, ∃ e ∈ p.world.own i, login.step < e.step ∧
        Authenticates login caller ∧ e.before.state.Allows caller resource action none := by
  have hown : p.world.own i ⊆ p.world.trace := List.filter_subset_self _
  constructor
  · intro resource action o hroute
    have hdecided := ((ledger_start ht.schema ht.undrawn).reaches (respond_decided ht) hr).outcome
      hth (Thread.code_of_outcome hout)
    obtain ⟨user, e, d, ⟨he, e₁, h₁, e₂, h₂, hlt, hlt', hauthenticates, hmem⟩, hd, rfl⟩ :=
      hdecided resource action o hroute response rfl
    refine ⟨user.id, e₁, h₁, e, he, hlt.trans hlt', hauthenticates, ?_⟩
    obtain ⟨hgrown, hschema⟩ := grown_between ht hr (hown h₂) (hown he) hlt'.le
    have hactive := hgrown.active_iff hschema hmem
    cases hd with
    | inr hgone =>
        have hkept := List.mem_map_of_mem (f := account) hmem
        obtain ⟨y, hy, heq⟩ := List.mem_map.mp (hgrown.users.subset hkept)
        have hid : (account y).id = (account user).id := congrArg User.id heq
        exact absurd hid (hgone.2 y hy)
    | inl hd =>
        have hallows : decide (e.before.state.Allows user.id resource action o) =
            (user.isActive && decide (Carries e.before.state user.id resource action o)) := by
          rw [Bool.eq_iff_iff, Bool.and_eq_true, decide_eq_true_eq, decide_eq_true_eq, ← hactive]
          exact Iff.rfl
        rw [hd, hallows]
  · intro resource action hguard
    have hmet := (Server.ledger_kept ht hr).outcome hth (Thread.code_of_outcome hout) response rfl
    obtain ⟨caller, hmet⟩ := hmet
    rw [hguard] at hmet
    obtain ⟨e₁, h₁, e₂, h₂, e₃, h₃, hlt, hlt', hauthenticates, hactive, hcarries⟩ := hmet
    refine ⟨caller, e₁, h₁, e₃, h₃, hlt.trans hlt', hauthenticates, ?_, hcarries⟩
    obtain ⟨x, hx, rfl, hxactive⟩ := hactive
    obtain ⟨hgrown, hschema⟩ := grown_between ht hr (hown h₂) (hown h₃) hlt'.le
    exact (hgrown.active_iff hschema hx).mpr hxactive

end Runs

/-- The second user asks what they may do, and is given a role in between. -/
def asked : Server subjectEnvironment :=
  Pool.played (respond subjectEnvironment) (Server.started handedTables)
    [.spawn ⟨some "Bearer 3", .authorize "user" "manage" none⟩, .exec 0, .exec 0, .exec 0,
      .spawn ⟨some "Bearer 1", .assignRoleToUser ⟨3⟩ ⟨5⟩ none⟩, .finish 1, .finish 0]

theorem authorize_atomic_asked : ∃ caller, ∃ login ∈ asked.world.own 0, ∃ e ∈ asked.world.own 0,
    login.step < e.step ∧ Authenticates login caller ∧
      ok (.decision ⟨true, "user", "manage", none⟩) = ok (.decision
        ⟨decide (e.before.state.Allows caller "user" "manage" none), "user", "manage", none⟩) := by
  have hlook : (asked.threads[0]?.map fun th => (th.request.route, th.outcome)) =
      some (.authorize "user" "manage" none,
        some (.ok (ok (.decision ⟨true, "user", "manage", none⟩)))) := by decide +kernel
  obtain ⟨th, hth, heq⟩ := Option.map_eq_some_iff.mp hlook
  obtain ⟨hroute, hout⟩ := Prod.mk.inj heq
  exact (authorize_atomic handedTables_ready (Pool.played_reaches _ (Server.started handedTables) _)
    hth hout).1 _ _ _ hroute

end SecureIam.Api
