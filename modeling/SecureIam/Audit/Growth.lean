import SecureIam.Audit.Pages

/-!
Reading the audit log page by page while other calls append to it. Nothing is ever taken
out of the log or moved in it, so an event can only get behind the page that it was on.
-/
namespace SecureIam
open Lib AuditLogRepository
variable {env : Environment} {f : EventFilter} {limit offset : Nat}

theorem Write.logs (v : Write) (t : Tables) : t.auditLogs <+: (v.apply t).auditLogs := by
  cases v with
  | insert τ r =>
      cases τ
      case auditLogs => exact List.prefix_append _ _
      all_goals exact List.prefix_refl _
  | _ => exact List.prefix_refl _

theorem view_logs (ws : List Write) (t : Tables) :
    t.auditLogs <+: (Store.view (T := tableStore) ws t).auditLogs := by
  induction ws generalizing t with
  | nil => exact List.prefix_refl _
  | cons v ws ih => exact (v.logs t).trans (ih (v.apply t))

abbrev Lib.World.logs (w : History env Request) : List AuditLog := w.shared.state.auditLogs

theorem matching_grows (f : EventFilter) {t t' : Tables} (h : t.auditLogs <+: t'.auditLogs) :
    f.matching t <+: f.matching t' := h.filter _

section Exec
variable {i : Nat} {req : Request} {o : Stmt} {r : o.Res} {l l' : Session}
    {w w' : History env Request}

/-- Only a commit changes the log, and it appends to it. -/
theorem exec_logs (h : w.exec i req o l = some (r, w', l')) : w.logs <+: w'.logs := by
  obtain ⟨g, hg, rfl, -⟩ := World.exec_step h
  have heff := exec_effect hg
  cases ho : o.ends with
  | false =>
      have hlogs : w'.logs = w.logs := congrArg Tables.auditLogs (heff.grows ho).1
      exact hlogs ▸ List.prefix_refl _
  | true =>
      cases (heff.ended ho).2.2 with
      | inl hsame =>
          have hlogs : w'.logs = w.logs := congrArg Tables.auditLogs hsame
          exact hlogs ▸ List.prefix_refl _
      | inr hview =>
          have hlogs : w'.logs = (Store.view (T := tableStore)
            l.pending w.shared.state).auditLogs :=
            congrArg Tables.auditLogs hview
          exact hlogs ▸ view_logs l.pending w.shared.state

end Exec

/-- Every step appends to the log, or leaves it. -/
def logProtocol (env : Environment) : Protocol (machine env) Request where
  inv := Sound
  loc := InSession
  rely j w w' := Interference j w w' ∧ w.logs <+: w'.logs
  guar _ _ _ w w' := w.logs <+: w'.logs
  rely_refl i w := ⟨.refl i w, List.prefix_refl _⟩
  rely_trans h h' := ⟨h.1.trans h'.1, h.2.trans h'.2⟩
  loc_start hinv hnew := start_inSession hinv hnew
  loc_rely hloc hrely := hloc.allowed hrely.1.allowed
  loc_exec hloc hexec := exec_inSession hloc hexec
  exec_rely hij _ hloc hexec _ _ := ⟨exec_interference hij hloc hexec, exec_logs hexec⟩

/-- A page is what the two queries of the call have found, the count after the events. -/
def PageRead (f : EventFilter) (limit offset i : Nat) (page : AuditLogPageResponse)
    (w : History env Request) : Prop :=
  ∃ e e' rest, w.own i = e :: e' :: rest ∧
    e.op = .selectAuditLogs f.matching (AuditLogRepository.page limit offset) ∧
    e.before.state.auditLogs <+: e'.before.state.auditLogs ∧
    page = ⟨AuditLogRepository.page limit offset (env.scan e.step (f.matching e.before.state)),
      (f.matching e'.before.state).length, limit, offset⟩

/-- Every page that a call has answered with. -/
def PagePost (req : Request) (i : Nat) : Protocol.Post (machine env) Request Error Response :=
    fun out _ w =>
  match req, out with
  | .listEvents f limit offset, out =>
      ∃ page, out = .ok (.events page) ∧ PageRead f limit offset i page w
  | _, _ => True

/-- Whatever a statement does, it keeps to the protocol. -/
theorem wp_statement {i : Nat} {req : Request} {l : Session} {u : History env Request} {α : Type}
    {o : Stmt} {k : o.Res → App α} {Q : Protocol.Post (machine env) Request Error α}
    (h : ∀ w r w' l', (logProtocol env).Later i l u w → w.exec i req o l = some (r, w', l') →
      (logProtocol env).wp i req Q (k r) l' w') : (logProtocol env).wp i req Q (.op o k) l u := by
  intro w hlater r w' l' hexec
  exact ⟨exec_sound hlater.2.1 hlater.2.2 hexec, exec_logs hexec, h w r w' l' hlater hexec⟩

theorem wp_listEvents {i : Nat} {req : Request} {u : History env Request} (hown : u.own i = []) :
    (logProtocol env).wp i req (fun out _ w => ∃ page, out = .ok (.events page) ∧
      PageRead f limit offset i page w)
      (serve env (.listEvents f limit offset)) {} u := by
  refine wp_statement fun u₁ events w₁ l₁ hlater₁ hexec₁ => wp_statement
    fun u₂ total w₂ l₂ hlater₂ hexec₂ => ?_
  refine wp_statement fun u₃ r w₃ l₃ hlater₃ hexec₃ w₄ hlater₄ => ?_
  have hown₂ := (hlater₂.1.1.own).trans (World.own_exec_self hexec₁)
  have hown₃ := (hlater₃.1.1.own).trans (World.own_exec_self hexec₂)
  have hown₄ := (hlater₄.1.1.own).trans (World.own_exec_self hexec₃)
  rw [hlater₁.1.1.own, hown] at hown₂
  rw [hown₂] at hown₃
  rw [hown₃] at hown₄
  obtain ⟨g₁, hg₁, -⟩ := World.exec_step hexec₁
  obtain ⟨g₂, hg₂, -⟩ := World.exec_step hexec₂
  simp only [exec, Option.some.injEq, Prod.mk.injEq] at hg₁ hg₂
  obtain ⟨hevents, -, rfl⟩ := hg₁
  obtain ⟨htotal, -, rfl⟩ := hg₂
  refine ⟨_, rfl, _, _, _, hown₄, rfl, (exec_logs hexec₁).trans hlater₂.1.2, ?_⟩
  subst hevents htotal
  rfl

theorem serve_pages (env : Environment) : (logProtocol env).Serves PagePost (serve env) := by
  intro req i u hu hnew
  have hown : u.own i = [] := List.filter_eq_nil_iff.mpr fun e he => by simp [hnew e he]
  cases req
  case listEvents f limit offset => exact wp_listEvents hown
  all_goals
    refine ((logProtocol env).wp_of_all (J := fun _ _ => True) (Program.all_trivial _)
      (fun _ _ => trivial) ?_ trivial).mono fun _ _ _ _ _ _ => trivial
    intro o _ r l l' w w' _ hinv hloc hexec
    exact ⟨exec_sound hinv hloc hexec, exec_logs hexec, trivial⟩

namespace Calls
variable {p p' : Calls env}

/-- A run in which the log has only been appended to. -/
abbrev Logged (p : Calls env) : Prop := (logProtocol env).Kept PagePost p

theorem logged_fresh {t : Tables} (ht : t.Ready env) : (Calls.fresh env t).Logged :=
  Protocol.kept_start (sound_fresh ht).inv rfl

theorem Logged.grows (h : p.Logged) (hr : Reaches (serve env) p p') :
    p.world.logs <+: p'.world.logs :=
  h.across (serve_pages env) hr (E := fun w w' => w.logs <+: w'.logs) (fun _ => List.prefix_refl _)
    (fun h h' => h.trans h') fun h => h

/-- What a statement of the run has found. -/
theorem Logged.entry (h : p.Logged) (hr : Reaches (serve env) p p')
    {e : Entry (machine env) Request} (he : e ∈ p'.world.trace) (hnew : e ∉ p.world.trace) :
    e.before.state.Schema ∧ p.world.logs <+: e.before.state.auditLogs ∧
      e.before.state.auditLogs <+: p'.world.logs := by
  obtain ⟨q, q', hq, hstep, hq', hbefore, -⟩ := (hr.entry he).resolve_left hnew
  have hkept : Logged q := h.reaches (serve_pages env) hq
  rw [← hbefore]
  exact ⟨hkept.inv.schema, h.grows hq, hkept.grows (hq'.head hstep)⟩

/-- A request starts. -/
abbrev begin (p : Calls env) (req : Request) : Calls env :=
  ⟨p.world, p.threads ++ [⟨req, (machine env).start, serve env req⟩]⟩

/-- A client reads the pages one after the other, from the first on, while other calls go
on. A page comes with the entry of the query for its events. -/
inductive Turning (f : EventFilter) (limit : Nat) (p : Calls env) :
    List (Entry (machine env) Request × AuditLogPageResponse) → Calls env → Prop
  | start {q : Calls env} (hr : Reaches (serve env) p q) : Turning f limit p [] q
  | page {reads : List (Entry (machine env) Request × AuditLogPageResponse)} {q q' : Calls env}
      {th : Thread (machine env) Request Error Response} {page : AuditLogPageResponse}
      {e : Entry (machine env) Request} (h : Turning f limit p reads q)
      (hr : Reaches (serve env) (q.begin (.listEvents f limit (reads.length * limit))) q')
      (hth : q'.threads[q.threads.length]? = some th)
      (hout : th.outcome = some (.ok (.events page)))
      (he : (q'.world.own q.threads.length).head? = some e) : Turning f limit p
      (reads ++ [(e, page)]) q'

theorem Turning.reaches {reads : List (Entry (machine env) Request × AuditLogPageResponse)}
    (h : p.Turning f limit reads p') : Reaches (serve env) p p' := by
  induction h with
  | start hr => exact hr
  | @page reads q q' th page e h hr hth hout he ih => exact ih.trans (hr.head (.spawn q _))

/-- In every query, the events of one time come in one order. -/
def TiesOrdered (p : Calls env) (before : AuditLog → AuditLog → Prop) : Prop :=
  ∀ e ∈ p.world.trace, ∀ (f : EventFilter) order, e.op = .selectAuditLogs f.matching order →
    (env.scan e.step (f.matching e.before.state)).Pairwise fun a b => a.occurredAt = b.occurredAt →
    before a b

theorem TiesOrdered.reaches {before : AuditLog → AuditLog → Prop} (h : p'.TiesOrdered before)
    (hr : Reaches (serve env) p p') : p.TiesOrdered before := by
  intro e he
  obtain ⟨new, htrace⟩ := hr.trace
  exact h e (htrace ▸ List.mem_append_left new he)

/-- The page of a call, by the log that its first query has found. -/
theorem Logged.page (h : p.Logged)
    (hr : Reaches (serve env) (p.begin (.listEvents f limit offset)) p')
    {th : Thread (machine env) Request Error Response} {page : AuditLogPageResponse}
    {e : Entry (machine env) Request} (hth : p'.threads[p.threads.length]? = some th)
    (hout : th.outcome = some (.ok (.events page)))
    (he : (p'.world.own p.threads.length).head? = some e) :
    e ∈ p'.world.trace ∧ e ∉ p.world.trace ∧
      e.op = .selectAuditLogs f.matching (AuditLogRepository.page limit offset) ∧
      page.events = AuditLogRepository.page limit offset
        (env.scan e.step (f.matching e.before.state)) ∧
      (f.matching e.before.state).length ≤ page.total := by
  have hbegin : Reaches (serve env) p p' := hr.head (.spawn p _)
  have hp' : Logged p' := h.reaches (serve_pages env) hbegin
  have hnew : (p.begin (.listEvents f limit offset)).threads[p.threads.length]? =
      some ⟨.listEvents f limit offset, (machine env).start,
        serve env (.listEvents f limit offset)⟩ := by simp
  obtain ⟨th', hth', hreq⟩ := hr.thread hnew
  obtain rfl := Option.some.inj (hth.symm.trans hth')
  have hpost := hp'.outcome hth (Thread.code_of_outcome hout)
  rw [show th.request = .listEvents f limit offset from hreq] at hpost
  obtain ⟨page', hpage, e₁, e₂, rest, hown, hop, hlogs, rfl⟩ := hpost
  obtain rfl : page = _ := Response.events.inj (Except.ok.inj hpage)
  rw [hown, List.head?_cons, Option.some.injEq] at he
  subst he
  have hmem := World.mem_own.mp (hown ▸ List.mem_cons_self : e₁ ∈ p'.world.own p.threads.length)
  refine ⟨hmem.1, fun hold => ?_, hop, rfl, (matching_grows f hlogs).length_le⟩
  exact Nat.ne_of_lt (h.owner e₁ hold) hmem.2

/-- The order of a page. -/
def pageOrder (before : AuditLog → AuditLog → Prop) (a b : AuditLog) : Prop :=
  b.occurredAt ≤ a.occurredAt ∧ (a.occurredAt = b.occurredAt → before a b)

theorem pageOrder_antisymm {before : AuditLog → AuditLog → Prop}
    (h : ∀ a b, before a b → before b a → a = b) (a b : AuditLog) (hab : pageOrder before a b)
    (hba : pageOrder before b a) : a = b := by
  have heq : a.occurredAt = b.occurredAt := le_antisymm hba.1 hab.1
  exact h a b (hab.2 heq) (hba.2 heq.symm)

/-- A query for events lists them in the order of the pages. -/
theorem TiesOrdered.listing {before : AuditLog → AuditLog → Prop} (h : p.TiesOrdered before)
    {e : Entry (machine env) Request} (he : e ∈ p.world.trace)
    {order : List AuditLog → List AuditLog} (hop : e.op = .selectAuditLogs f.matching order) :
    ((env.scan e.step (f.matching e.before.state)).insertionSort fun a b =>
      b.occurredAt ≤ a.occurredAt).Perm (f.matching e.before.state) ∧
    ((env.scan e.step (f.matching e.before.state)).insertionSort fun a b =>
      b.occurredAt ≤ a.occurredAt).Pairwise (pageOrder before) :=
  ⟨(List.perm_insertionSort _ _).trans (env.scan_perm _ _),
    pairwise_insertionSort_ties _ (h e he f order hop)⟩

/-- The pages together: an event that was in the log when the first of them was read is on
one of them, or behind all of them. -/
theorem Turning.covers {before : AuditLog → AuditLog → Prop}
    (hanti : ∀ a b, before a b → before b a → a = b) (hp : p.Logged)
    {reads : List (Entry (machine env) Request × AuditLogPageResponse)}
    (h : p.Turning f limit reads p') (hties : p'.TiesOrdered before)
    {first : Entry (machine env) Request × AuditLogPageResponse} (hfirst : reads.head? = some first)
    {event : AuditLog} (hevent : event ∈ f.matching first.1.before.state) :
    (∃ read ∈ reads, event ∈ read.2.events) ∨
      ((∃ m, m <+: f.matching p'.tables ∧ Behind (pageOrder before) m event
        (reads.length * limit)) ∧
        ∀ read, reads.getLast? = some read → read.2.events.length = limit) := by
  induction h with
  | start hr => cases hfirst
  | @page reads q q' th page e h hr hth hout he ih =>
      have hq : Logged q := hp.reaches (serve_pages env) h.reaches
      have hq' := hr.head (Step.spawn q (.listEvents f limit (reads.length * limit)))
      obtain ⟨hmem, hnew, hop, hevents, -⟩ := hq.page hr hth hout he
      obtain ⟨hschema, hlogs, hlogs'⟩ := hq.entry hq' hmem hnew
      obtain ⟨hlisted, hordered⟩ := hties.listing hmem hop
      have hbefore : (∃ read ∈ reads, event ∈ read.2.events) ∨
        ∃ m, m.Sublist (f.matching e.before.state) ∧
          Behind (pageOrder before) m event (reads.length * limit) := by
        cases reads with
        | nil =>
            obtain rfl : (e, page) = first := Option.some.inj hfirst
            refine .inr ⟨_, .refl _, _, hlisted, hordered, hlisted.mem_iff.mpr hevent, ?_⟩
            rw [List.length_nil, Nat.zero_mul]
            exact Nat.zero_le _
        | cons read reads =>
            refine (ih (hties.reaches hq') hfirst).imp_right fun hbehind => ?_
            obtain ⟨⟨m, hm, hbehind⟩, -⟩ := hbehind
            exact ⟨m, (hm.trans (matching_grows f hlogs)).sublist, hbehind⟩
      cases hbefore with
      | inl hread =>
          obtain ⟨read, hread, hon⟩ := hread
          exact .inl ⟨read, List.mem_append_left _ hread, hon⟩
      | inr hbehind =>
          obtain ⟨m, hm, hbehind⟩ := hbehind
          have hnodup : (f.matching e.before.state).Nodup := (hschema.nodup .auditLogs).filter _
          cases hbehind.read (pageOrder_antisymm hanti) hm hnodup hlisted hordered with
          | inl hon => exact .inl ⟨(e, page), by simp, hevents ▸ hon⟩
          | inr hnext =>
              refine .inr ⟨⟨_, matching_grows f hlogs', ?_⟩, fun read hread => ?_⟩
              · rw [List.length_append, List.length_singleton]
                exact hnext.1
              · rw [List.getLast?_append, List.getLast?_singleton] at hread
                obtain rfl := Option.some.inj hread
                exact (congrArg List.length hevents).trans hnext.2

/-- There are no more events on a page than the total leaves room for. -/
theorem Turning.counted (hp : p.Logged)
    {reads : List (Entry (machine env) Request × AuditLogPageResponse)}
    (h : p.Turning f limit reads p') {k : Nat}
    {read : Entry (machine env) Request × AuditLogPageResponse} (hread : reads[k]? = some read) :
    read.2.events.length ≤ read.2.total - k * limit := by
  induction h with
  | start hr => cases hread
  | @page reads q q' th page e h hr hth hout he ih =>
      rw [List.getElem?_append] at hread
      split at hread
      · exact ih hread
      · have hq : Logged q := hp.reaches (serve_pages env) h.reaches
        obtain ⟨-, -, -, hevents, htotal⟩ := hq.page hr hth hout he
        have hlast : k - reads.length = 0 := by simpa using (List.getElem?_eq_some_iff.mp hread).1
        obtain rfl : k = reads.length := by omega
        rw [Nat.sub_self] at hread
        obtain rfl := Option.some.inj hread
        have hlength := (env.scan_perm e.step (f.matching e.before.state)).length_eq
        simp only [hevents, AuditLogRepository.page, List.length_take, List.length_drop,
          List.length_insertionSort]
        omega

end Calls

/-- Reading on until a page is not full loses no event that was in the log at the first
page, and no page has more events than the total says. -/
theorem paging_loses_nothing {t : Tables} (ht : t.Ready env) {before : AuditLog → AuditLog → Prop}
    (hanti : ∀ a b, before a b → before b a → a = b) {p : Calls env}
    {reads : List (Entry (machine env) Request × AuditLogPageResponse)}
    (h : (Calls.fresh env t).Turning f limit reads p) (hties : p.TiesOrdered before) :
    (∀ first last, reads.head? = some first → reads.getLast? = some last →
      last.2.events.length < limit →
      ∀ event ∈ f.matching first.1.before.state, ∃ read ∈ reads, event ∈ read.2.events) ∧
    ∀ (k : Nat) read, reads[k]? = some read → read.2.events.length ≤ read.2.total - k * limit := by
  have hfresh := Calls.logged_fresh ht
  refine ⟨fun first last hfirst hlast hshort event hevent => ?_, fun k read hread =>
    h.counted hfresh hread⟩
  refine (h.covers hanti hfresh hties hfirst hevent).resolve_right fun hbehind => ?_
  exact Nat.ne_of_lt hshort (hbehind.2 last hlast)

/-- Rows that come in the order of their insertion have their ties in one order. -/
theorem tiesOrdered_of_insertion {t : Tables} (ht : t.Ready env) {p : Calls env}
    (hr : Reaches (serve env) (Calls.fresh env t) p)
    (hscan : ∀ n (rows : List AuditLog), env.scan n rows = rows) :
    p.TiesOrdered fun a b => a = b ∨ p.tables.auditLogs.idxOf a < p.tables.auditLogs.idxOf b := by
  intro e he f order hop
  have hlogs := ((Calls.logged_fresh ht).entry hr he (List.not_mem_nil)).2.2
  have hnodup : p.tables.auditLogs.Nodup := ((Calls.sound_fresh ht).reaches hr).inv.schema.nodup
    .auditLogs
  have hplaces : p.tables.auditLogs.Pairwise fun a b =>
      p.tables.auditLogs.idxOf a < p.tables.auditLogs.idxOf b := by
    refine List.pairwise_iff_getElem.mpr fun i j hi hj hij => ?_
    rwa [hnodup.idxOf_getElem, hnodup.idxOf_getElem]
  rw [hscan]
  exact (hplaces.sublist (List.filter_sublist.trans hlogs.sublist)).imp fun h _ => .inr h

theorem Calls.Turning.played {p q : Calls env}
    {reads : List (Entry (machine env) Request × AuditLogPageResponse)}
    (h : p.Turning f limit reads q) (k : Nat) (hk : reads.length = k) (acts : List (Act Request))
    (page : AuditLogPageResponse)
    (hread : let q' : Calls env :=
      Pool.played (serve env) (q.begin (.listEvents f limit (k * limit))) acts
        q'.threads[q.threads.length]?.bind Thread.outcome = some (.ok (.events page)) ∧
          (q'.world.own q.threads.length).head?.isSome) :
    ∃ e, p.Turning f limit (reads ++ [(e, page)])
      (Pool.played (serve env) (q.begin (.listEvents f limit (k * limit))) acts) := by
  subst hk
  obtain ⟨hout, hown⟩ := hread
  obtain ⟨th, hth, hout⟩ := Option.bind_eq_some_iff.mp hout
  obtain ⟨e, he⟩ := Option.isSome_iff_exists.mp hown
  exact ⟨e, h.page (Pool.played_reaches _ _ _) hth hout he⟩

/-- A user registers while the pages of two events are read. -/
theorem paging_loses_nothing_registered :
    ∃ reads p, (Calls.fresh plainEnvironment tiedTables).Turning {} 1 reads p ∧
    reads.map (·.2.events) =
      [[failedRegistration ⟨1⟩ 0], [failedRegistration ⟨1⟩ 0], [failedRegistration ⟨3⟩ 0], []] ∧
    ∀ first, reads.head? = some first → ∀ event ∈ EventFilter.matching {} first.1.before.state,
      ∃ read ∈ reads, event ∈ read.2.events := by
  have hstart : (Calls.fresh plainEnvironment tiedTables).Turning {} 1 []
    (Calls.fresh plainEnvironment tiedTables) :=
    .start .refl
  obtain ⟨e₀, h₀⟩ := hstart.played 0 rfl [.finish 0, .spawn (.register "a" "p")]
    ⟨[failedRegistration ⟨1⟩ 0], 2, 1, 0⟩ (by decide +kernel)
  obtain ⟨e₁, h₁⟩ := h₀.played 1 rfl [.finish 1, .finish 2] ⟨[failedRegistration ⟨1⟩ 0], 3, 1, 1⟩
    (by decide +kernel)
  obtain ⟨e₂, h₂⟩ := h₁.played 2 rfl [.finish 3] ⟨[failedRegistration ⟨3⟩ 0], 3, 1, 2⟩
    (by decide +kernel)
  obtain ⟨e₃, h₃⟩ := h₂.played 3 rfl [.finish 4] ⟨[], 3, 1, 3⟩ (by decide +kernel)
  refine ⟨_, _, h₃, rfl, fun first hfirst event hevent => ?_⟩
  have hties := tiesOrdered_of_insertion tiedTables_ready h₃.reaches fun _ _ => rfl
  have hanti : ∀ {logs : List AuditLog} (a b : AuditLog), (a = b ∨ logs.idxOf a < logs.idxOf b) →
      (b = a ∨ logs.idxOf b < logs.idxOf a) → a = b := by
    intro logs a b hab hba
    refine hab.elim (fun h => h) fun hlt => hba.elim Eq.symm fun hgt => ?_
    exact absurd hlt (Nat.lt_asymm hgt)
  exact (paging_loses_nothing tiedTables_ready hanti h₃ hties).1 first (e₃, _)
    hfirst rfl Nat.zero_lt_one event hevent

end SecureIam
