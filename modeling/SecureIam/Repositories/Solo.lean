import SecureIam.Db.Solo
import SecureIam.Repositories.AuditLogRepository

/-!
How the pieces of the repositories end when they run alone: lookups by a key, an
INSERT with its commit, and the recording of an event.
-/
namespace SecureIam
open Lib App
variable {env : Environment} {α β : Type} {s s' s'' : Solo} {t : Tables} {before : List Tables}

abbrev Ends (env : Environment) (p : App α) (s : Solo) (out : Except Error α) (s' : Solo) : Prop :=
  p.eval (Solo.exec env) s = some (out, s')

section Ends
variable {p : App α} {f : α → App β} {a : α} {e : Error} {out : Except Error α}

theorem ends_ret (a : α) (s : Solo) : Ends env (.ret a) s (.ok a) s := rfl

theorem Ends.bind {out : Except Error β} (h : Ends env p s (.ok a) s')
    (h' : Ends env (f a) s' out s'') : Ends env (p.bind f) s out s'' :=
  (Program.eval_bind_ok h).trans h'

theorem Ends.raise (h : Ends env p s (.error e) s') : Ends env (p.bind f) s (.error e) s' :=
  Program.eval_bind_error h

theorem Ends.handle {g : Error → App α} (h : Ends env p s (.ok a) s') :
    Ends env (p.handle g) s (.ok a) s' :=
  Program.eval_handle_ok h

theorem Ends.handled {g : Error → App α} (h : Ends env p s (.error e) s')
    (h' : Ends env (g e) s' out s'') : Ends env (p.handle g) s out s'' :=
  (Program.eval_handle_error h).trans h'

theorem Ends.assoc {γ : Type} {f : α → App β} {g : β → App γ} {out : Except Error γ}
    (h : Ends env ((p.bind f).bind g) s out s') :
    Ends env (p.bind fun a => (f a).bind g) s out s' := by
  rwa [← Program.bind_assoc]

theorem Ends.map (h : Ends env p s out s') (g : α → β) : Ends env (g <$> p) s (out.map g) s' := by
  cases out with
  | ok a => exact h.bind (ends_ret (g a) s')
  | error e => exact h.raise

theorem Ends.step_le (h : Ends env p s out s') : s.step ≤ s'.step := by
  induction p generalizing s with
  | ret a | raise e =>
      obtain ⟨-, rfl⟩ := Prod.mk.inj (Option.some.inj h)
      exact le_rfl
  | op o k ih =>
      simp only [Ends, Program.eval] at h
      split at h
      · cases h
      · rename_i r s₁ hstep
        have hmoves := (Solo.exec_moves hstep).step
        have hle := ih r h
        omega

end Ends

namespace Solo

/-- Nothing is pending on top of the tables `t`, which have replaced those of `before`. -/
structure Settled (env : Environment) (t : Tables) (before : List Tables) (s : Solo) : Prop where
  good : s.Good env
  view : s.view = t
  committed : s.committed = t
  before : s.before = before

namespace Settled

/-- Reading is as good as doing nothing. -/
theorem of_eq (h : Settled env t before s) (hview : s'.view = s.view)
    (hcommitted : s'.committed = s.committed) (hbefore : s'.before = s.before)
    (hstep : s.step ≤ s'.step) : Settled env t before s' := by
  refine ⟨⟨hview ▸ h.good.schema, fun m τ hm => ?_⟩, hview.trans h.view,
    hcommitted.trans h.committed, hbefore.trans h.before⟩
  rw [hview]
  exact h.good.undrawn m τ (by omega)

theorem next (h : Settled env t before s) : Settled env t before s.next :=
  h.of_eq rfl rfl rfl s.step.le_succ

theorem touch (h : Settled env t before s) : Settled env t before s.touch :=
  h.of_eq rfl rfl rfl s.step.le_succ

theorem schema (h : Settled env t before s) : t.Schema := h.view ▸ h.good.schema

theorem undrawn (h : Settled env t before s) (τ : Table) :
    ¬ t.hasKey (.primary τ (env.uuid s.step)) :=
  h.view ▸ h.good.undrawn s.step τ le_rfl

end Settled

/-- The run stands settled on the first of the versions. -/
structure Leaves (env : Environment) (s : Solo) (versions : List Tables) : Prop where
  settled : s.Settled env s.committed s.before
  versions : s.committed :: s.before = versions

theorem Settled.leaves (h : s.Settled env t before) : s.Leaves env (t :: before) :=
  ⟨⟨h.good, h.view.trans h.committed.symm, rfl, rfl⟩, by rw [h.committed, h.before]⟩

theorem Leaves.schema {versions : List Tables} (h : s.Leaves env (t :: versions)) : t.Schema :=
  (List.cons.inj h.versions).1 ▸ h.settled.schema

/-- The session sees `v`; what is committed is still `t`. -/
structure Opened (env : Environment) (v t : Tables) (before : List Tables) (s : Solo) : Prop where
  good : s.Good env
  view : s.view = v
  committed : s.committed = t
  before : s.before = before

theorem Settled.opened (h : Settled env t before s) : Opened env t t before s :=
  ⟨h.good, h.view, h.committed, h.before⟩

namespace Opened
variable {v : Tables}

theorem schema (h : Opened env v t before s) : v.Schema := h.view ▸ h.good.schema

theorem undrawn (h : Opened env v t before s) (τ : Table) :
    ¬ v.hasKey (.primary τ (env.uuid s.step)) :=
  h.view ▸ h.good.undrawn s.step τ le_rfl

/-- A checked row change. -/
theorem write {w : Write} (h : Opened env v t before s) (hok : w.Ok v)
    (hnew : ∀ τ id, .primary τ id ∈ w.adds → id = env.uuid s.step) :
    Opened env (w.apply v) t before (s.write w) := by
  have hview := h.view
  subst hview
  refine ⟨⟨Write.schema_apply h.schema hok, fun m τ hm hkey => ?_⟩, rfl, h.committed, h.before⟩
  have hlt : s.step < m := hm
  cases Write.hasKey_of_apply hkey with
  | inl hkey => exact h.good.undrawn m τ hlt.le hkey
  | inr hadd =>
      have := env.uuid_injective _ _ (hnew _ _ hadd)
      omega

theorem commit (h : Opened env v t before s) :
    ∃ s', Ends env App.commit s (.ok ()) s' ∧ s'.Settled env v (t :: before) := by
  have hview := h.view
  subst hview
  refine ⟨_, rfl, ⟨h.good.schema, fun m τ hm => ?_⟩, rfl, rfl, congrArg₂ List.cons h.committed
    h.before⟩
  exact h.good.undrawn m τ (Nat.le_of_succ_le hm)

end Opened

end Solo

section Statements
variable {τ : Table}

theorem ends_select {q : Tables → List τ.Row} (hq : ∀ r ∈ q s.view, r ∈ s.view.rows τ) :
    Ends env (select τ q) s (.ok (q s.view)) s.touch := by
  refine Program.eval_issue ?_
  simp only [Solo.exec]
  exact if_pos hq

theorem ends_scalarOneOrNone {rows : List α} (h : rows = [] ∨ ∃ r, rows = [r]) :
    Ends env (scalarOneOrNone rows) s (.ok rows.head?) s := by
  cases h with
  | inl h => exact h ▸ rfl
  | inr h =>
      obtain ⟨r, rfl⟩ := h
      rfl

/-- A lookup by a key. -/
theorem ends_lookup (hs : s.view.Schema) {k : LockKey} {p : τ.Row → Bool}
    (hp : ∀ r, p r = true → k ∈ τ.keys r) :
    Ends env (do scalarOneOrNone (← select τ fun t => (t.rows τ).filter p)) s
      (.ok ((s.view.rows τ).find? p)) s.touch := by
  refine (ends_select fun r hr => (List.mem_filter.mp hr).1).bind ?_
  rw [← List.head?_filter]
  exact ends_scalarOneOrNone ((hs.filter_key hp).imp_right fun hr =>
    ⟨hr.choose, hr.choose_spec.2.2⟩)

/-- The row that an INSERT makes at this point. -/
def Table.Draft.soloRow (draft : τ.Draft) (env : Environment) (s : Solo) : τ.Row :=
  draft.row (env.uuid s.step) (s.now env)

theorem ends_insert {draft : τ.Draft} (hok : (Write.insert τ (draft.soloRow env s)).Ok s.view) :
    Ends env (App.insert τ draft) s (.ok (draft.soloRow env s))
      (s.write (.insert τ (draft.soloRow env s))) := by
  have hissue : Ends env (App.issue (.insert τ draft)) s (.ok (some (draft.soloRow env s)))
      (s.write (.insert τ (draft.soloRow env s))) := by
    refine Program.eval_issue ?_
    simp only [Solo.exec]
    exact if_pos hok
  exact hissue.bind rfl

theorem ends_insert_error {draft : τ.Draft}
    (hok : ¬ (Write.insert τ (draft.soloRow env s)).Ok s.view) :
    Ends env (App.insert τ draft) s (.error .integrityError) s.touch := by
  have hissue : Ends env (App.issue (.insert τ draft)) s (.ok none) s.touch := by
    refine Program.eval_issue ?_
    simp only [Solo.exec]
    exact if_neg hok
  exact hissue.bind rfl

/-- `session.refresh` of a row that is there. -/
theorem ends_refresh (hs : s.view.Schema) {i : Uuid} {r : τ.Row} (hr : r ∈ s.view.rows τ)
    (hk : .primary τ i ∈ τ.keys r) : Ends env (App.refresh τ i) s (.ok r) s.touch := by
  have hfind : (s.view.rows τ).find? (.primary τ i ∈ τ.keys ·) = some r := by
    cases hs.filter_key (τ := τ) (k := .primary τ i) (p := (.primary τ i ∈ τ.keys ·)) (by simp) with
    | inl hnil =>
        exact absurd (List.mem_filter.mpr ⟨hr, by simpa using hk⟩) (hnil ▸ List.not_mem_nil)
    | inr hone =>
        obtain ⟨x, hx, hkx, hfilter⟩ := hone
        rw [← List.head?_filter, hfilter, hs.row_unique hr hx hk (by simpa using hkx)]
        rfl
  have hissue : Ends env (App.issue (.refresh τ i)) s (.ok (some r)) s.touch := by
    refine Program.eval_issue ?_
    simp only [Solo.exec, hfind]
  exact hissue.bind rfl

/-- An inserted row has no other id than the one that is drawn for it. -/
theorem Table.Draft.soloRow_drawn (draft : τ.Draft) (env : Environment) (s : Solo) {σ : Table}
    {id : Uuid} (hid : .primary σ id ∈ τ.keys (draft.soloRow env s)) : id = env.uuid s.step := by
  obtain rfl : σ = τ := Table.mem_keys_table hid
  exact draft.drawn _ _ id hid

variable {draft : τ.Draft}

/-- A row change is committed. -/
theorem ends_write_commit {w : Write} (h : s.Settled env t before) (hok : w.Ok t)
    (hnew : ∀ σ id, .primary σ id ∈ w.adds → id = env.uuid s.step) :
    ∃ s', Ends env commit (s.write w) (.ok ()) s' ∧ s'.Settled env (w.apply t) (t :: before) :=
  (h.opened.write hok hnew).commit

/-- Nothing is committed. -/
theorem ends_idle_commit (h : s.Settled env t before) :
    ∃ s', Ends env commit s (.ok ()) s' ∧ s'.Settled env t (t :: before) :=
  h.opened.commit

/-- A row change that adds no key and needs none is committed, and the row is reloaded. -/
theorem ends_update_commit {w : Write} (h : s.Settled env t before) (hadds : w.adds = [])
    (hrequires : w.requires = []) {i : Uuid} {r : τ.Row} (hr : r ∈ (w.apply t).rows τ)
    (hk : .primary τ i ∈ τ.keys r) :
    ∃ s', Ends env commit (s.write w) (.ok ()) s' ∧
      Ends env (App.refresh τ i) s' (.ok r) s'.touch ∧
      s'.touch.Settled env (w.apply t) (t :: before) := by
  have hok : w.Ok t := ⟨fun k hmem => by simp [hadds] at hmem, fun k hmem => by
    simp [hrequires] at hmem⟩
  obtain ⟨s', hcommit, hsettled⟩ := ends_write_commit h hok fun σ id hmem => by
    simp [hadds] at hmem
  exact ⟨s', hcommit, ends_refresh hsettled.good.schema (hsettled.view.symm ▸ hr) hk,
    hsettled.touch⟩

/-- A row is inserted and committed. -/
theorem ends_insert_commit (h : s.Settled env t before)
    (hok : (Write.insert τ (draft.soloRow env s)).Ok t) :
    ∃ s', Ends env (do
        let row ← App.insert τ draft
        commit
        return row) s (.ok (draft.soloRow env s)) s' ∧
      s'.Settled env (t.insert τ (draft.soloRow env s)) (t :: before) := by
  obtain ⟨s', hcommit, hs'⟩ := ends_write_commit h hok fun σ id hid => draft.soloRow_drawn env s hid
  have hinsert := ends_insert (h.view.symm ▸ hok)
  exact ⟨s', hinsert.bind (hcommit.bind rfl), hs'⟩

/-- `session.add(row); await session.commit()` in a `try`, and the reload. -/
theorem ends_insertOne (draft : τ.Draft) {q : App τ.Row} {e : Error} {id : τ.Row → Uuid}
    (h : s.Settled env t before)
    (hq : q = do
      let row ← exceptIntegrityError
        (do
          let row ← App.insert τ draft
          commit
          return row) e
      App.refresh τ (id row))
    (hok : (Write.insert τ (draft.soloRow env s)).Ok t)
    (hid : .primary τ (id (draft.soloRow env s)) ∈ τ.keys (draft.soloRow env s)) :
    ∃ s', Ends env q s (.ok (draft.soloRow env s)) s' ∧
      s'.Settled env (t.insert τ (draft.soloRow env s)) (t :: before) := by
  subst hq
  obtain ⟨s', hends, hsettled⟩ := ends_insert_commit h hok
  refine ⟨s'.touch, hends.handle.bind (ends_refresh hsettled.good.schema ?_ hid), hsettled.touch⟩
  rw [hsettled.view, Tables.rows_insert_self]
  simp

theorem ends_exceptIntegrityError {p : App α} {e : Error} (h : s.Settled env t before)
    (hp : Ends env p s (.error .integrityError) s.touch) :
    ∃ s', Ends env (exceptIntegrityError p e) s (.error e) s' ∧ s'.Settled env t before := by
  have hrollback : Ends env rollback s.touch (.ok ())
      ⟨s.step + 2, none, s.before, s.committed, s.committed⟩ := rfl
  refine ⟨_, hp.handled (hrollback.bind rfl), h.of_eq ?_ rfl rfl ?_⟩
  · exact h.committed.trans h.view.symm
  · exact Nat.le_add_right s.step 2

/-- A duplicate, or a reference to nothing. -/
theorem ends_insertOne_error (draft : τ.Draft) {q : App τ.Row} {e : Error} {id : τ.Row → Uuid}
    (h : s.Settled env t before)
    (hq : q = do
      let row ← exceptIntegrityError
        (do
          let row ← App.insert τ draft
          commit
          return row) e
      App.refresh τ (id row))
    (hok : ¬ (Write.insert τ (draft.soloRow env s)).Ok t) :
    ∃ s', Ends env q s (.error e) s' ∧ s'.Settled env t before := by
  subst hq
  have hview := h.view
  subst hview
  obtain ⟨s', hends, hsettled⟩ := ends_exceptIntegrityError (e := e) (p := (do
    let row ← App.insert τ draft
    commit
    return row)) h (ends_insert_error hok).raise
  exact ⟨s', hends.raise, hsettled⟩

/-- The rows that an event refers to. -/
def AuditRecord.references (r : AuditRecord) : List LockKey :=
  r.actorUserId.toList.map (.primary .users) ++ r.organizationId.toList.map
    (.primary .organizations)

open AuditLogRepository in
theorem ends_record {r : AuditRecord} (h : s.Settled env t before)
    (href : ∀ k ∈ r.references, t.hasKey k) :
    ∃ s', Ends env (record r) s (.ok ((AuditLogRepository.draft r).soloRow env s)) s' ∧
      s'.Settled env (t.insert .auditLogs ((AuditLogRepository.draft r).soloRow env s))
        (t :: before) := by
  have hok : (Write.insert .auditLogs ((AuditLogRepository.draft r).soloRow env s)).Ok t := by
    refine ⟨fun k hk hkey => ?_, href⟩
    obtain rfl := List.mem_singleton.mp hk
    exact h.undrawn .auditLogs hkey
  obtain ⟨s', hcommit, hs'⟩ := ends_write_commit h hok fun σ id hid =>
    (AuditLogRepository.draft r).soloRow_drawn env s hid
  have hinsert := ends_insert (h.view.symm ▸ hok)
  refine ⟨s'.touch, hinsert.bind (hcommit.bind (ends_refresh hs'.good.schema ?_ ?_)), hs'.touch⟩
  · rw [hs'.view, Write.apply, Tables.rows_insert_self]
    simp
  · exact List.mem_singleton_self _

/-- An event of an actor that does not exist. -/
theorem ends_record_error {r : AuditRecord} (h : s.Settled env t before)
    (href : ¬ ∀ k ∈ r.references, t.hasKey k) :
    Ends env (AuditLogRepository.record r) s (.error .integrityError) s.touch := by
  have hview := h.view
  subst hview
  have hok : ¬ (Write.insert .auditLogs ((AuditLogRepository.draft r).soloRow env s)).Ok s.view :=
    fun hok => href hok.requires
  exact (ends_insert_error hok).raise

end Statements

end SecureIam
