import SecureIam.Access.Footprints
import SecureIam.Access.Journal

/-!
The audit log while others act: the event of an addition tells a change that its own request has
made before, and a request that succeeds has told every change that it has made.
-/
namespace SecureIam
open Lib App Program
variable {ρ α β : Type} {env : Environment} {t t₀ : Tables} {i : Nat} {req : ρ} {l l' : Session}
  {o : Stmt} {r : o.Res} {u w w' : History env ρ} {v : Write}

section Entries
variable (e : Entry (machine env) ρ)

/-- The statement has changed who may do what, or who belongs where. -/
def Lib.Entry.Alters : Prop := e.after.state.journal ≠ e.before.state.journal

def Lib.Entry.ToldBy (x : AuditLog) : Prop :=
  e.after.state.journal = e.before.state.journal.replay x

def Lib.Entry.Records (x : AuditLog) : Prop :=
  x ∈ e.after.state.auditLogs ∧ x ∉ e.before.state.auditLogs

/-- The statement has published just this write. -/
structure Lib.Entry.Publishes (v : Write) : Prop where
  schema : e.before.state.Schema
  ok : v.Ok e.before.state
  state : e.after.state = v.apply e.before.state

variable {e} in
theorem Lib.Entry.Publishes.records {x : AuditLog} (h : e.Publishes (.insert .auditLogs x)) :
    e.Records x := by
  constructor
  · rw [h.state]
    exact List.mem_append_right _ (List.mem_singleton_self x)
  · intro hx
    exact h.ok.adds (.primary .auditLogs x.id) List.mem_cons_self
      (Tables.hasKey_iff.mpr ⟨.auditLogs, x, hx, List.mem_cons_self⟩)

end Entries

variable {es es' new : List (Entry (machine env) ρ)}

/-- The statements have changed nothing. -/
def Still (es : List (Entry (machine env) ρ)) : Prop := ∀ e ∈ es, ¬ e.Alters

/-- Whatever the statements have changed, they have recorded. -/
def Recounts (es : List (Entry (machine env) ρ)) : Prop :=
  ∀ e ∈ es, e.Alters → ∃ e' ∈ es, ∃ x, e'.Records x ∧ e.ToldBy x

theorem still_singleton {e : Entry (machine env) ρ} (h : e.after.state = e.before.state) :
    Still [e] := by
  intro e' he' halters
  rw [List.mem_singleton.mp he'] at halters
  exact halters (congrArg Tables.journal h)

theorem Still.append (h : Still es) (h' : Still es') : Still (es ++ es') := by
  intro e he
  exact (List.mem_append.mp he).elim (h e) (h' e)

theorem Still.recounts (h : Still es) : Recounts es := fun e he halters => absurd halters (h e he)

theorem Recounts.append (h : Recounts es) (h' : Recounts es') : Recounts (es ++ es') := by
  intro e he halters
  cases List.mem_append.mp he with
  | inl he =>
      obtain ⟨e', he', hrest⟩ := h e he halters
      exact ⟨e', List.mem_append_left _ he', hrest⟩
  | inr he =>
      obtain ⟨e', he', hrest⟩ := h' e he halters
      exact ⟨e', List.mem_append_right _ he', hrest⟩

def additions : List AuditAction :=
  [.roleCreated, .roleAssigned, .permissionAssignedToRole, .organizationCreated,
    .organizationMemberAdded]

/-- An event of an addition may only tell a change that the request has made. -/
def Honest (es : List (Entry (machine env) ρ)) (v : Write) : Prop :=
  ∀ x, v = .insert .auditLogs x → x.action ∈ additions → ∃ e ∈ es, e.Alters ∧ e.ToldBy x

def honesty (env : Environment) (ρ : Type) : Licence env ρ where
  may _ es v := Honest es v
  mono h x hx hadd := by
    obtain ⟨e, he, hrest⟩ := h x hx hadd
    exact ⟨e, List.mem_append_left _ he, hrest⟩

/-- The program has ended its transactions, and its statements are as asked if it succeeds. -/
def Extends (u : History env ρ) (i : Nat) (R : α → List (Entry (machine env) ρ) → Prop) :
    Protocol.Post (machine env) ρ Error α := fun out l w =>
  l.pending = [] ∧ ∃ new, w.own i = u.own i ++ new ∧ ∀ a, out = .ok a → R a new

section Rules
variable {L : Licence env ρ} {Q : Protocol.Post (machine env) ρ Error α}
  {R : α → List (Entry (machine env) ρ) → Prop} {R' : β → List (Entry (machine env) ρ) → Prop}
  {p : App α} {f : α → App β}

theorem extends_error {e : Error} (hl : l.pending = []) (hown : w.own i = u.own i ++ new) :
    Extends u i R (.error e) l w :=
  ⟨hl, new, hown, fun a ha => by cases ha⟩

theorem Extends.mono {R' : α → List (Entry (machine env) ρ) → Prop} {out : Except Error α}
    (h : Extends u i R out l w) (hR : ∀ a new, R a new → R' a new) : Extends u i R' out l w := by
  obtain ⟨hl, new, hown, hnew⟩ := h
  exact ⟨hl, new, hown, fun a ha => hR a new (hnew a ha)⟩

theorem wp_extends_ret {a : α} (hl : l.pending = []) (hR : R a []) :
    (ledger env t₀ L).wp i req (Extends u i R) (.ret a) l u := by
  intro w hlater
  refine ⟨hl, [], ?_, fun b hb => ?_⟩
  · rw [hlater.1.own, List.append_nil]
  · cases hb
    exact hR

theorem wp_extends_raise {e : Error} (hl : l.pending = []) :
    (ledger env t₀ L).wp i req (Extends u i R) (.raise e) l u := by
  intro w hlater
  exact extends_error hl (hlater.1.own.trans (List.append_nil _).symm)

theorem Extends.prepend {out : Except Error α} (hown : w.own i = u.own i ++ new)
    (h : Extends w i (fun a new' => R a (new ++ new')) out l w') : Extends u i R out l w' := by
  obtain ⟨hl, new', hown', hnew⟩ := h
  rw [hown, List.append_assoc] at hown'
  exact ⟨hl, _, hown', hnew⟩

theorem wp_extends_bind (hp : (ledger env t₀ L).wp i req (Extends u i R) p l u)
    (hf : ∀ a new l w, l.pending = [] → w.own i = u.own i ++ new → R a new →
      (ledger env t₀ L).wp i req (Extends w i fun b new' => R' b (new ++ new')) (f a) l w) :
    (ledger env t₀ L).wp i req (Extends u i R') (p.bind f) l u := by
  refine Protocol.wp_bind (hp.mono fun out l' w _ _ h => ?_)
  obtain ⟨hl', new, hown, hnew⟩ := h
  cases out with
  | error e => exact extends_error hl' hown
  | ok a => exact (hf a new l' w hl' hown (hnew a rfl)).mono fun _ _ _ _ _ h => h.prepend hown

/-- A handler that ends in an error, too. -/
theorem wp_extends_handle {g : Error → App α}
    (hg : ∀ e l w, l.pending = [] → (ledger env t₀ L).wp i req (Extends w i fun _ _ => False) (g e)
      l w)
    (hp : (ledger env t₀ L).wp i req (Extends u i R) p l u) :
    (ledger env t₀ L).wp i req (Extends u i R) (p.handle g) l u := by
  refine Protocol.wp_bind (Protocol.wp_attempt (hp.mono fun out l' w _ _ h => ?_))
  obtain ⟨hl', new, hown, hnew⟩ := h
  cases out with
  | error e =>
      refine (hg e l' w hl').mono fun _ _ _ _ _ h => Extends.prepend hown ?_
      exact h.mono fun _ _ hnew' => hnew'.elim
  | ok a => exact fun w' hlater => ⟨hl', new, hlater.1.own.trans hown, hnew⟩

theorem exec_still (ho : ∀ v, ¬ o.Writes v) (hl : l.pending = [])
    (h : w.exec i req o l = some (r, w', l')) :
    l'.pending = [] ∧ w'.shared.state = w.shared.state := by
  obtain ⟨g, hg, hshared, -⟩ := World.exec_step h
  rw [hshared]
  have heff := exec_effect hg
  cases hends : o.ends with
  | true =>
      have hended := heff.ended hends
      refine ⟨hended.2.1, hended.2.2.elim id fun hstate => ?_⟩
      rw [hstate, hl]
      rfl
  | false =>
      obtain ⟨hstate, -, us, hpending, hus⟩ := heff.grows hends
      refine ⟨?_, hstate⟩
      rw [hpending, hl, List.nil_append]
      exact List.eq_nil_iff_forall_not_mem.mpr fun v hv => ho v (hus v hv)

/-- A program that only reads. -/
theorem wp_still (hp : p.All (Stmt.Within fun _ => False)) (hl : l.pending = []) :
    (ledger env t₀ L).wp i req (Extends u i fun _ => Still) p l u := by
  refine ((ledger env t₀ L).wp_of_all (J := fun l w => l.pending = [] ∧
    ∃ new, w.own i = u.own i ++ new ∧ Still new) hp (fun h hr => hr.own ▸ h) ?_
      ⟨hl, [], (List.append_nil _).symm, fun _ he => by cases he⟩).mono ?_
  · intro o ho r l l' w w' h hinv hloc hexec
    obtain ⟨hpending, new, hown, hstill⟩ := h
    obtain ⟨hinv', hguar, -⟩ := exec_ledger hinv hloc (Abides.of_nil hpending) hexec
    obtain ⟨hpending', hstate⟩ := exec_still ho hpending hexec
    have hown' := World.own_exec_self hexec
    rw [hown, List.append_assoc] at hown'
    exact ⟨hinv', hguar, hpending', _, hown', hstill.append (still_singleton hstate)⟩
  · intro out l w _ _ h
    obtain ⟨hpending, new, hown, hstill⟩ := h
    exact ⟨hpending, new, hown, fun _ _ => hstill⟩

/-- The commit of one write. -/
theorem wp_publish {f : Unit → App α} (hl : l.pending = [v]) (hmay : L.may req (u.own i) v)
    (h : ∀ w l' e, l'.pending = [] → w.own i = u.own i ++ [e] → e.Publishes v →
      (ledger env t₀ L).wp i req Q (f ()) l' w) :
    (ledger env t₀ L).wp i req Q (App.commit.bind f) l u := by
  have habides : Abides L (u.own i) i req l u := by
    refine ⟨fun p hp => ?_, [], (List.append_nil _).symm⟩
    rw [hl, List.mem_singleton] at hp
    exact hp ▸ hmay
  refine wp_ledger habides fun w₁ r w₂ l₂ hlater hexec _ _ => ?_
  have hself := World.own_exec_self hexec
  obtain ⟨g, hg, hshared, -⟩ := World.exec_step hexec
  obtain ⟨rfl, rfl⟩ := exec_commit hg
  have hvalid : schema.Valid [v] w₁.shared.state := hl ▸ hlater.2.2.1.valid
  refine h w₂ _ ⟨w₁.trace.length, i, req, .commit, r, w₁.shared, w₂.shared⟩ rfl
    (hlater.1.own ▸ hself) ⟨hlater.2.1.1.schema, hvalid.1, ?_⟩
  rw [hshared, hl]
  rfl

/-- The statements have published the write, and changed nothing else. -/
structure Carried (v : Write) (es : List (Entry (machine env) ρ)) : Prop where
  published : ∃ e ∈ es, e.Publishes v
  only : ∀ e ∈ es, e.Alters → e.Publishes v

theorem Carried.append (h : Carried v es) (h' : Still es') : Carried v (es ++ es') := by
  obtain ⟨e, he, hpublishes⟩ := h.published
  refine ⟨⟨e, List.mem_append_left _ he, hpublishes⟩, fun e he halters => ?_⟩
  cases List.mem_append.mp he with
  | inl he => exact h.only e he halters
  | inr he => exact absurd halters (h' e he)

/-- The statements have inserted the row and committed it. -/
structure Inserted (τ : Table) (x : τ.Row) (es : List (Entry (machine env) ρ)) : Prop where
  carried : Carried (.insert τ x) es
  drawn : ∃ e ∈ es, e.inserted = some (.insert τ x)

/-- `session.add(row); await session.commit()` -/
theorem wp_inserted {τ : Table} {d : τ.Draft} {g : τ.Row → α} (hl : l.pending = [])
    (hmay : ∀ id now, L.may req (u.own i) (.insert τ (d.row id now))) :
    (ledger env t₀ L).wp i req (Extends u i fun a new => ∃ id now, a = g (d.row id now) ∧
        Inserted τ (d.row id now) new)
      ((App.insert τ d).bind fun row => App.commit.bind fun _ => .ret (g row)) l u := by
  simp only [App.insert, Program.bind_def, Program.bind_assoc]
  refine wp_ledger (Abides.of_nil hl) fun w₁ r w₂ l₂ hlater hexec _ _ => ?_
  have hself := World.own_exec_self hexec
  rw [hlater.1.own] at hself
  obtain ⟨g₂, hg₂, hshared, -⟩ := World.exec_step hexec
  cases r with
  | none =>
      obtain ⟨-, hpending⟩ := exec_insert_none hg₂
      intro w₃ hlater'
      exact extends_error (hpending.trans hl) (hlater'.1.own.trans hself)
  | some row =>
      obtain ⟨rfl, hpending⟩ := exec_insert_some hg₂
      rw [hl, List.nil_append] at hpending
      refine wp_publish hpending (hself ▸ L.mono (hmay _ _)) fun w₃ l₃ e hl₃ hown he => ?_
      intro w₄ hlater'
      rw [← hlater'.1.own, hself, List.append_assoc] at hown
      refine ⟨hl₃, _, hown, fun a ha => ?_⟩
      cases ha
      have hstate : w₂.shared.state = w₁.shared.state := by
        rw [hshared]
        exact ((exec_effect hg₂).grows rfl).1
      refine ⟨_, _, rfl, ⟨⟨e, List.mem_cons_of_mem _ (List.mem_singleton_self e), he⟩,
        fun e' he' halters => ?_⟩, _, List.mem_cons_self, rfl⟩
      cases List.mem_cons.mp he' with
      | inl he' =>
          subst he'
          exact absurd (congrArg Tables.journal hstate) halters
      | inr he' => exact List.mem_singleton.mp he' ▸ he

theorem wp_extends_except {err : Error}
    (hp : (ledger env t₀ L).wp i req (Extends u i R) p l u) :
    (ledger env t₀ L).wp i req (Extends u i R) (exceptIntegrityError p err) l u := by
  refine wp_extends_handle (fun e l w hl => ?_) hp
  have hrollback : App.rollback.All (Stmt.Within fun _ => False) :=
    within_reads (uses_issue (o := .rollback) trivial)
  split
  · exact wp_extends_bind (wp_still hrollback hl) fun _ _ l' w' hl' _ _ => wp_extends_raise hl'
  · exact wp_extends_raise hl

/-- `await session.refresh(row)` of a row that the request has inserted. -/
theorem wp_refreshed {τ : Table} {x : τ.Row} {id : Uuid} (ht₀ : t₀.Ready env)
    (hfixed : ∀ y : τ.Row, τ.fixed y = y) (hx : Inserted τ x new) (hnew : new ⊆ u.own i)
    (hid : .primary τ id ∈ τ.keys x) (hl : l.pending = []) :
    (ledger env t₀ L).wp i req (Extends u i fun y new' => y = x ∧ Still new') (App.refresh τ id) l
      u := by
  refine wp_ledger (Abides.of_nil hl) fun w₁ r w₂ l₂ hlater hexec hinv _ => ?_
  have hself := World.own_exec_self hexec
  obtain ⟨hl₂, hstate⟩ := exec_still (o := .refresh τ id) (fun _ hv => hv) hl hexec
  rw [hlater.1.own] at hself
  cases r with
  | none => exact fun w₃ hlater' => extends_error hl₂ (hlater'.1.own.trans hself)
  | some y =>
      intro w₃ hlater'
      refine ⟨hl₂, _, hlater'.1.own.trans hself, fun a ha => ?_⟩
      cases ha
      refine ⟨?_, still_singleton hstate⟩
      obtain ⟨g, hg, -, -⟩ := World.exec_step hexec
      obtain ⟨hy, hyid⟩ := exec_refresh_some hg
      obtain ⟨e, he, hinserted⟩ := hx.drawn
      have hborn : Born t₀ w₁ τ x := by
        refine .inr ⟨e, ?_, x, hinserted, rfl⟩
        exact List.mem_of_mem_filter (hlater.1.own ▸ hnew he)
      have hsame := hborn.found_again ht₀ (List.Subset.refl _) hlater.2.1 hlater.2.2 hy hid hyid
      rwa [hfixed, hfixed] at hsame

/-- The recording of an event. -/
theorem wp_eventRecorded {a : AuditRecord} (hl : l.pending = [])
    (hmay : ∀ id now,
      L.may req (u.own i) (.insert .auditLogs ((AuditLogRepository.draft a).row id now))) :
    (ledger env t₀ L).wp i req (Extends u i fun _ new => Still new ∧
        ∃ id now, ∃ e ∈ new, e.Records ((AuditLogRepository.draft a).row id now))
      (AuditLogRepository.record a) l u := by
  have hrecord : AuditLogRepository.record a =
      ((App.insert .auditLogs (AuditLogRepository.draft a)).bind fun row =>
        App.commit.bind fun _ => .ret row).bind fun log => App.refresh .auditLogs log.id := by
    simp [AuditLogRepository.record, Program.bind_def, Program.bind_assoc]
  rw [hrecord]
  refine wp_extends_bind (wp_inserted (g := id) hl hmay) fun log new l' w hl' hown h => ?_
  obtain ⟨id, now, rfl, hinserted⟩ := h
  have hrefresh : (App.refresh .auditLogs ((AuditLogRepository.draft a).row id now).id).All
      (Stmt.Within fun _ => False) := within_reads (uses_refresh _ _)
  have hstill : Still new := by
    intro e he halters
    refine halters ?_
    rw [(hinserted.carried.only e he halters).state]
    rfl
  refine (wp_still hrefresh hl').mono fun out l'' w' _ _ h => h.mono fun x new' hnew' => ?_
  obtain ⟨e, he, hpublishes⟩ := hinserted.carried.published
  exact ⟨hstill.append hnew', id, now, e, List.mem_append_left _ he, hpublishes.records⟩

end Rules

/-- The event tells what the statements have changed, and an event of an addition has a change
to tell. -/
structure Owes (a : AuditRecord) (es : List (Entry (machine env) ρ)) : Prop where
  told : ∀ e ∈ es, e.Alters → ∀ id now, e.ToldBy ((AuditLogRepository.draft a).row id now)
  honest : a.action ∈ additions → ∃ e ∈ es, e.Alters ∧
    ∀ id now, e.ToldBy ((AuditLogRepository.draft a).row id now)

/-- The event of what the statements have changed. -/
theorem wp_tells {a : AuditRecord} {b : β} (hl : l.pending = []) (hown : w.own i = u.own i ++ new)
    (howes : Owes a new) :
    (ledger env t₀ (honesty env ρ)).wp i req (Extends w i fun _ new' => Recounts (new ++ new'))
      ((AuditLogRepository.record a).bind fun _ => .ret b) l w := by
  refine wp_extends_bind (wp_eventRecorded hl fun id now x hx hadd => ?_)
    fun x new' l' w' hl' _ h => ?_
  · cases hx
    obtain ⟨e, he, halters, htold⟩ := howes.honest hadd
    exact ⟨e, hown ▸ List.mem_append_right _ he, halters, htold id now⟩
  · obtain ⟨hstill, id, now, e', he', hrecords⟩ := h
    refine wp_extends_ret hl' fun e he halters => ?_
    rw [List.append_nil] at he ⊢
    cases List.mem_append.mp he with
    | inr he => exact absurd halters (hstill e he)
    | inl he =>
        exact ⟨e', List.mem_append_right _ he', _, hrecords, howes.told e he halters id now⟩

/-- A change, and then its event. -/
theorem wp_recounted {p : App α} {a : α → AuditRecord} {f : α → β}
    (hp : (ledger env t₀ (honesty env ρ)).wp i req (Extends u i fun b => Owes (a b)) p l u) :
    (ledger env t₀ (honesty env ρ)).wp i req (Extends u i fun _ => Recounts)
      (p.bind fun b => (AuditLogRepository.record (a b)).bind fun _ => .ret (f b)) l u :=
  wp_extends_bind hp fun _ _ _ _ hl' hown howes => wp_tells hl' hown howes

/-- An insertion owes the event that tells it. -/
theorem Carried.owes {a : AuditRecord} (h : Carried v new)
    (halters : ∀ t : Tables, v.Ok t → (v.apply t).journal ≠ t.journal)
    (htold : ∀ (t : Tables) id now, t.Schema → v.Ok t →
      (v.apply t).journal = t.journal.replay ((AuditLogRepository.draft a).row id now)) :
    Owes a new := by
  have hpublished : ∀ {e : Entry (machine env) ρ}, e.Publishes v → ∀ id now,
      e.ToldBy ((AuditLogRepository.draft a).row id now) := by
    intro e he id now
    rw [Lib.Entry.ToldBy, he.state]
    exact htold e.before.state id now he.schema he.ok
  refine ⟨fun e he h' => hpublished (h.only e he h'), fun _ => ?_⟩
  obtain ⟨e, he, hpublishes⟩ := h.published
  refine ⟨e, he, ?_, hpublished hpublishes⟩
  rw [Lib.Entry.Alters, hpublishes.state]
  exact halters e.before.state hpublishes.ok

end SecureIam
