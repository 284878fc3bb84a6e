import SecureIam.Db.Session
import SecureIam.Lib.Protocol

/-!
What one statement can do, and what therefore holds between any two statements of
any sessions whatever their programs are: the constraints, locks that belong to
running sessions, and keys that are drawn only once.
-/
namespace SecureIam
open Lib
variable {ρ : Type} {env : Environment}

/-- The statement ends a transaction. -/
def Stmt.ends : Stmt → Bool
  | .commit | .rollback => true
  | _ => false

/-- The writes that a statement can add to its transaction. -/
def Stmt.Writes : Stmt → Write → Prop
  | .insert τ draft, w => ∃ u now, w = .insert τ (draft.row u now)
  | .updateLastLoginAt id t, w => w = .setLastLoginAt id t
  | .updateIsActive id active, w => w = .setIsActive id active
  | .revokeIfActive id t, w | .updateRevokedAt id t, w => w = .setRevokedAt id t
  | .updateReplacedBy id child, w => w = .setReplacedBy id child
  | .deleteRolePermission _ _, w => ∃ r, w = .deleteRolePermission r
  | .deleteUserRole _, w => ∃ r, w = .deleteUserRole r
  | .deleteMembership _, w => ∃ r, w = .deleteMembership r
  | _, _ => False

/-- The whole effect of a statement on the database and on the pending writes. -/
inductive Effect (env : Environment) (n i : Nat) (g : Database) (ws : List Write) :
    Stmt → Database → List Write → Prop
  | read {o : Stmt} (ho : o.ends = false) : Effect env n i g ws o g ws
  | write {o : Stmt} (ho : o.ends = false) {w : Write} (how : o.Writes w) {g' : Database}
      (hw : g.write i w = some g')
      (hok : w.Ok (Store.view (T := tableStore) ws g.state))
      (hold : ∀ k ∈ w.keys, k ∈ w.adds ∨ (Store.view (T := tableStore) ws g.state).hasKey k)
      (hnew : ∀ τ id, .primary τ id ∈ w.adds → id = env.uuid n) :
      Effect env n i g ws o g' (ws ++ [w])
  | commit : Effect env n i g ws .commit (g.commit i ws) []
  | rollback : Effect env n i g ws .rollback (g.rollback i) []

namespace Session

theorem view_of_nil {l : Session} (hp : l.pending = []) (g : Database) : l.view g = g.state := by
  simp only [view, hp]
  rfl

/-- Nothing is mapped yet, so every row becomes a new object. -/
theorem object_users {l : Session} (h : ∀ id, l.users id = none) : l.object .users =
    fun r => r := by
  funext r
  simp [object, h]

theorem object_refreshTokens {l : Session} (h : ∀ id, l.refreshTokens id = none) :
    l.object .refreshTokens = fun r => r := by
  funext r
  simp [object, h]

@[simp] theorem touch_pending (l : Session) (n : Nat) : (l.touch n).pending = l.pending := rfl
@[simp] theorem push_pending (l : Session) (w : Write) :
    (l.push w).pending = l.pending ++ [w] := rfl
@[simp] theorem load_pending (l : Session) (τ : Table) (rs : List τ.Row) :
    (l.load τ rs).pending = l.pending := by cases τ <;> rfl
@[simp] theorem reload_pending (l : Session) (τ : Table) (r : τ.Row) :
    (l.reload τ r).pending = l.pending := by cases τ <;> rfl
@[simp] theorem amendUser_pending (l : Session) (id : Uuid) (f : User → User) :
    (l.amendUser id f).pending = l.pending := rfl
@[simp] theorem amendToken_pending (l : Session) (id : Uuid) (f : RefreshToken → RefreshToken) :
    (l.amendToken id f).pending = l.pending := rfl

end Session

theorem writeRow_eq_some {i c : Nat} {found : Option Write} {g g' : Database} {l l' : Session} :
    writeRow i found g l = some (c, g', l') ↔
      (found = none ∧ c = 0 ∧ g' = g ∧ l' = l) ∨
      ∃ w, found = some w ∧ c = 1 ∧ g.write i w = some g' ∧ l' = l.push w := by
  cases found with
  | none =>
      simp only [writeRow, Option.some.injEq, Prod.mk.injEq, true_and, reduceCtorEq, false_and,
        exists_false, or_false]
      tauto
  | some w =>
      simp only [writeRow, Option.map_eq_some_iff, Prod.mk.injEq, reduceCtorEq, false_and,
        Option.some.injEq, false_or]
      constructor
      · intro ⟨g₁, hw, hc, hg, hl⟩
        exact ⟨w, rfl, hc.symm, hg ▸ hw, hl.symm⟩
      · intro ⟨w', hw', hc, hw, hl⟩
        subst hw'
        exact ⟨g', hw, hc.symm, rfl, hl.symm⟩

theorem updateWhere_eq_some {τ : Table} {p : τ.Row → Bool} {w w' : Write} {t : Tables} :
    updateWhere τ p w t = some w' ↔ (∃ r ∈ t.rows τ, p r) ∧ w' = w := by
  rw [updateWhere, ← List.any_eq_true]
  split
  · rename_i h
    rw [Option.some.injEq]
    exact ⟨fun hw => ⟨h, hw.symm⟩, fun hw => hw.2.symm⟩
  · rename_i h
    exact ⟨fun hw => (nomatch hw), fun hw => absurd hw.1 h⟩

theorem updateWhere_eq_none {τ : Table} {p : τ.Row → Bool} {w : Write} {t : Tables} :
    updateWhere τ p w t = none ↔ ∀ r ∈ t.rows τ, ¬ p r := by
  rw [updateWhere]
  split
  · rename_i h
    obtain ⟨r, hr, hp⟩ := List.any_eq_true.mp h
    exact ⟨fun hw => (nomatch hw), fun hw => absurd hp (hw r hr)⟩
  · rename_i h
    exact ⟨fun _ r hr hp => h (List.any_eq_true.mpr ⟨r, hr, hp⟩), fun _ => rfl⟩

section Effect
variable {n i : Nat} {g g' : Database} {l l' : Session}

/-- A write of an existing row needs no check and takes no new key. -/
private theorem effect_row {o : Stmt} (ho : o.ends = false) {c : Nat} {found : Option Write}
    {l₁ : Session} (hl : l₁.pending = l.pending)
    (hfound : ∀ w, found = some w → o.Writes w ∧ w.adds = [] ∧ w.Ok (l.view g) ∧
      ∀ k ∈ w.keys, (l.view g).hasKey k)
    (h : writeRow i found g l₁ = some (c, g', l')) :
    Effect env n i g l.pending o g' l'.pending := by
  cases writeRow_eq_some.mp h with
  | inl h =>
      obtain ⟨-, -, rfl, rfl⟩ := h
      exact hl ▸ .read ho
  | inr h =>
      obtain ⟨w, hw, -, hg, rfl⟩ := h
      obtain ⟨how, hadds, hok, hkeys⟩ := hfound w hw
      rw [Session.push_pending, hl]
      exact .write ho how hg hok (fun k hk => .inr (hkeys k hk))
        (fun τ id hid => by simp [hadds] at hid)

private theorem ok_of_nil {w : Write} {t : Tables} (ha : w.adds = []) (hr : w.requires = []) :
    w.Ok t :=
  ⟨fun k hk => by simp [ha] at hk, fun k hk => by simp [hr] at hk⟩

private theorem hasKey_primary {t : Tables} {τ : Table} {id : Uuid} {p : τ.Row → Bool}
    (hp : ∀ r, p r = true → .primary τ id ∈ τ.keys r) (h : ∃ r ∈ t.rows τ, p r) :
    t.hasKey (.primary τ id) := by
  obtain ⟨r, hr, hpr⟩ := h
  exact Tables.hasKey_iff.mpr ⟨τ, r, hr, hp r hpr⟩

private theorem effect_update {o : Stmt} (ho : o.ends = false) {c : Nat} {τ : Table} {id : Uuid}
    {p : τ.Row → Bool} {w : Write} (how : o.Writes w) {l₁ : Session}
    (h : writeRow i (updateWhere τ p w (l.view g)) g l₁ = some (c, g', l'))
    (hl : l₁.pending = l.pending) (hkeys : w.keys = [.primary τ id])
    (hp : ∀ r, p r = true → .primary τ id ∈ τ.keys r) (hadds : w.adds = [])
    (hok : w.Ok (l.view g)) :
    Effect env n i g l.pending o g' l'.pending := by
  refine effect_row ho hl (fun w' hw' => ?_) h
  obtain ⟨hrow, rfl⟩ := updateWhere_eq_some.mp hw'
  refine ⟨how, hadds, hok, fun k hk => ?_⟩
  rw [hkeys, List.mem_singleton] at hk
  exact hk ▸ hasKey_primary hp hrow

private theorem effect_delete {o : Stmt} (ho : o.ends = false) {c : Nat} {τ : Table}
    {p : τ.Row → Bool} {f : τ.Row → Write} (how : ∀ r, o.Writes (f r))
    (h : writeRow i ((((l.view g).rows τ).find? p).map f) g (l.touch n) = some (c, g', l'))
    (hkeys : ∀ r, (f r).keys = τ.keys r) (hadds : ∀ r, (f r).adds = [])
    (hreq : ∀ r, (f r).requires = []) : Effect env n i g l.pending o g' l'.pending := by
  refine effect_row ho (l.touch_pending n) (fun w hw => ?_) h
  obtain ⟨r, hr, rfl⟩ := Option.map_eq_some_iff.mp hw
  refine ⟨how r, hadds r, ok_of_nil (hadds r) (hreq r), fun k hk => ?_⟩
  exact Tables.hasKey_iff.mpr ⟨τ, r, List.mem_of_find?_eq_some hr, hkeys r ▸ hk⟩

theorem exec_effect {o : Stmt} {r : o.Res} (h : exec env n i o g l = some (r, g', l')) :
    Effect env n i g l.pending o g' l'.pending := by
  cases o with
  | utcNow | uuid4 | tokenUrlsafe | hashPassword _ | select _ _ | selectMembers _ _
  | selectAuditLogs _ _ | countAuditLogs _ =>
      simp only [exec, Option.some.injEq, Prod.mk.injEq] at h
      obtain ⟨-, rfl, rfl⟩ := h
      simpa using Effect.read rfl
  | refresh τ id =>
      simp only [exec] at h
      split at h
      all_goals
        simp only [Option.some.injEq, Prod.mk.injEq] at h
        obtain ⟨-, rfl, rfl⟩ := h
        simpa using Effect.read rfl
  | insert τ draft =>
      simp only [exec, Option.map_eq_some_iff] at h
      obtain ⟨g₁, hw, h⟩ := h
      split at h
      all_goals
        rename_i hok
        simp only [Prod.mk.injEq] at h
        obtain ⟨-, rfl, rfl⟩ := h
      · simp only [Session.reload_pending, Session.push_pending, Session.touch_pending]
        have how : (Stmt.insert τ draft).Writes
          (.insert τ (draft.row (env.uuid n) (l.now env n))) :=
          ⟨_, _, rfl⟩
        refine .write rfl how hw hok (fun k hk => .inl hk) fun τ' id hid => ?_
        obtain rfl : τ' = τ := Table.mem_keys_table hid
        exact draft.drawn _ _ id hid
      · exact .read rfl
  | updateLastLoginAt id t =>
      simp only [exec] at h
      exact effect_update rfl rfl h rfl rfl (by simp +contextual [Table.keys]) rfl
        (ok_of_nil rfl rfl)
  | updateIsActive id active =>
      simp only [exec] at h
      exact effect_update rfl rfl h rfl rfl (by simp +contextual [Table.keys]) rfl
        (ok_of_nil rfl rfl)
  | revokeIfActive id t =>
      simp only [exec] at h
      exact effect_update rfl rfl h rfl rfl (by simp +contextual [Table.keys]) rfl
        (ok_of_nil rfl rfl)
  | updateRevokedAt id t =>
      simp only [exec] at h
      exact effect_update rfl rfl h rfl rfl (by simp +contextual [Table.keys]) rfl
        (ok_of_nil rfl rfl)
  | updateReplacedBy id child =>
      simp only [exec] at h
      split at h
      · rename_i hok
        simp only [Option.map_eq_some_iff, Prod.mk.injEq] at h
        obtain ⟨⟨c, g₁, l₁⟩, h, -, rfl, rfl⟩ := h
        exact effect_update rfl rfl h rfl rfl (by simp +contextual [Table.keys]) rfl hok
      · simp only [Option.some.injEq, Prod.mk.injEq] at h
        obtain ⟨-, rfl, rfl⟩ := h
        exact .read rfl
  | deleteRolePermission _ _ =>
      simp only [exec] at h
      exact effect_delete (τ := .rolePermissions) rfl (fun r => ⟨r, rfl⟩) h (fun _ => rfl)
        (fun _ => rfl) (fun _ => rfl)
  | deleteUserRole _ =>
      simp only [exec] at h
      exact effect_delete (τ := .userRoles) rfl (fun r => ⟨r, rfl⟩) h (fun _ => rfl)
        (fun _ => rfl) (fun _ => rfl)
  | deleteMembership _ =>
      simp only [exec] at h
      exact effect_delete (τ := .memberships) rfl (fun r => ⟨r, rfl⟩) h (fun _ => rfl)
        (fun _ => rfl) (fun _ => rfl)
  | commit =>
      simp only [exec, Option.some.injEq, Prod.mk.injEq] at h
      obtain ⟨-, rfl, rfl⟩ := h
      exact .commit
  | rollback =>
      simp only [exec, Option.some.injEq, Prod.mk.injEq] at h
      obtain ⟨-, rfl, rfl⟩ := h
      exact .rollback

end Effect

/-- The ids that are drawn from step `n` on are in use nowhere. -/
structure Fresh (env : Environment) (n : Nat) (g : Database) : Prop where
  undrawn : ∀ m τ, n ≤ m → ¬ g.state.hasKey (.primary τ (env.uuid m))
  unlocked : ∀ m τ i, n ≤ m → g.locks (.primary τ (env.uuid m)) ≠ some i

/-- A session sees no key but committed ones and those it holds locks on. -/
theorem hasKey_view {i : Nat} {ws : List Write} {g : Database} (hl : schema.Open i ws g)
    {k : LockKey} (hk : (Store.view (T := tableStore) ws g.state).hasKey k) :
    g.state.hasKey k ∨ g.locks k = some i := by
  by_cases h : ∃ v ∈ ws, k ∈ v.keys
  · obtain ⟨v, hv, hkv⟩ := h
    exact .inr (hl.holds.locked v hv k hkv)
  · have hsame : k.Same g.state (Store.view (T := tableStore) ws g.state) :=
      Store.same_view g.state fun v hv hkv => h ⟨v, hv, hkv⟩
    exact .inl (hsame.hasKey ▸ hk)

namespace Effect
variable {n i j : Nat} {o : Stmt} {g g' : Database} {ws vs : List Write}

/-- A lock after a statement of session `i` was there before or is one of `i`'s. -/
theorem locks {k : LockKey} (h : Effect env n i g ws o g' vs) (hk : g'.locks k = some j) :
    g.locks k = some j ∨ j = i := by
  cases h with
  | read => exact .inl hk
  | write ho how hv hok hold hnew =>
      obtain ⟨-, rfl⟩ := Store.write_eq_some.mp hv
      simp only [Store.Committed.lock] at hk
      split at hk
      · exact .inr (Option.some.inj hk).symm
      · exact .inl hk
  | commit | rollback => exact .inl (Store.unlock_eq_some.mp hk).1

theorem isOpen (h : Effect env n i g ws o g' vs) (hl : schema.Open i ws g) :
    schema.Open i vs g' := by
  cases h with
  | read => exact hl
  | write ho how hw hok hold hnew => exact hl.write hw hok
  | commit | rollback => exact Constraints.open_unlocked _

theorem allowed (h : Effect env n i g ws o g' vs) (hij : i ≠ j) (hl : schema.Open i ws g) :
    schema.Allowed j g g' := by
  cases h with
  | read => exact .refl j _
  | write ho how hw hok hold hnew => exact Constraints.allowed_write hij hw
  | commit => exact Constraints.allowed_commit hij hl
  | rollback => exact Constraints.allowed_rollback hij

theorem state_write {w : Write} (hw : g.write i w = some g') : g'.state = g.state := by
  obtain ⟨-, rfl⟩ := Store.write_eq_some.mp hw
  rfl

/-- Inside a transaction nothing is published and no lock is given up. -/
theorem grows (h : Effect env n i g ws o g' vs) (ho : o.ends = false) :
    g'.state = g.state ∧ (∀ k j, g.locks k = some j → g'.locks k = some j) ∧
      ∃ us, vs = ws ++ us ∧ ∀ u ∈ us, o.Writes u := by
  cases h with
  | read => exact ⟨rfl, fun _ _ h => h, [], (List.append_nil _).symm, by simp⟩
  | @write _ _ w how _ hw hok hold hnew =>
      refine ⟨state_write hw, fun k j hk => ?_, [w], rfl, by simpa using how⟩
      obtain ⟨hfree, rfl⟩ := Store.write_eq_some.mp hw
      simp only [Store.Committed.lock]
      split
      · rename_i hkw
        cases hfree k hkw with
        | inl hnone => simp [hnone] at hk
        | inr hi => exact hi ▸ hk
      · exact hk
  | commit | rollback => cases ho

/-- The end of a transaction gives up its locks, and publishes all of it or nothing. -/
theorem ended (h : Effect env n i g ws o g' vs) (ho : o.ends = true) :
    g'.locks = g.unlock i ∧ vs = [] ∧
      (g'.state = g.state ∨ g'.state = Store.view (T := tableStore) ws g.state) := by
  cases h with
  | read ho' | write ho' => simp [ho] at ho'
  | commit => exact ⟨rfl, rfl, .inr rfl⟩
  | rollback => exact ⟨rfl, rfl, .inl rfl⟩

theorem keepsSchema (h : Effect env n i g ws o g' vs) (hl : schema.Open i ws g)
    (hg : g.state.Schema) : g'.state.Schema := by
  cases h with
  | read | rollback => exact hg
  | write ho how hw hok hold hnew => exact state_write hw ▸ hg
  | commit => exact hl.good_commit hg

theorem fresh (h : Effect env n i g ws o g' vs) (hl : schema.Open i ws g) (hg : Fresh env n g) :
    Fresh env (n + 1) g' := by
  have hview : ∀ m τ, n ≤ m →
      ¬ (Store.view (T := tableStore) ws g.state).hasKey (.primary τ (env.uuid m)) := by
    intro m τ hm hk
    cases hasKey_view hl hk with
    | inl hk => exact hg.undrawn m τ hm hk
    | inr hk => exact hg.unlocked m τ i hm hk
  have hunlocked : ∀ m τ j, n + 1 ≤ m → g'.locks (.primary τ (env.uuid m)) ≠ some j := by
    intro m τ j hm hk
    cases h with
    | read => exact hg.unlocked m τ j (by omega) hk
    | @write _ ho w how _ hw hok hold hnew =>
        obtain ⟨-, rfl⟩ := Store.write_eq_some.mp hw
        simp only [Store.Committed.lock] at hk
        split at hk
        · rename_i hkw
          cases hold _ hkw with
          | inl hadd =>
              have := env.uuid_injective _ _ (hnew _ _ hadd)
              omega
          | inr hrow => exact hview m τ (by omega) hrow
        · exact hg.unlocked m τ j (by omega) hk
    | commit | rollback => exact hg.unlocked m τ j (by omega) (Store.unlock_eq_some.mp hk).1
  refine ⟨fun m τ hm => ?_, hunlocked⟩
  cases h with
  | read | rollback => exact hg.undrawn m τ (by omega)
  | write ho how hw hok hold hnew => exact state_write hw ▸ hg.undrawn m τ (by omega)
  | commit => exact hview m τ (by omega)

end Effect

abbrev History (env : Environment) (ρ : Type) := World (machine env) ρ

/-- What holds between any two statements, whatever the programs are. -/
structure Sound (w : History env ρ) : Prop where
  schema : w.shared.state.Schema
  fresh : Fresh env w.trace.length w.shared
  holder : ∀ k i, w.shared.locks k = some i → ∃ e ∈ w.trace, e.pid = i
  placed : w.Placed

abbrev InSession (i : Nat) (l : Session) (w : History env ρ) : Prop :=
  schema.Open i l.pending w.shared

/-- What session `j` leaves to the others: its locks, whatever has keys that last,
and its own part of the trace. -/
structure Interference (j : Nat) (w w' : History env ρ) : Prop where
  allowed : schema.Allowed j w.shared w'.shared
  trace : ∃ new, w'.trace = w.trace ++ new ∧ ∀ e ∈ new, e.pid ≠ j

namespace Interference
variable {j : Nat} {w w₁ w₂ w₃ : History env ρ}

theorem refl (j : Nat) (w : History env ρ) : Interference j w w :=
  ⟨.refl j _, [], by simp⟩

theorem trans (h : Interference j w₁ w₂) (h' : Interference j w₂ w₃) : Interference j w₁ w₃ := by
  obtain ⟨new, htrace, hnew⟩ := h.trace
  obtain ⟨new', htrace', hnew'⟩ := h'.trace
  refine ⟨h.allowed.trans h'.allowed, new ++ new', ?_, fun e he => ?_⟩
  · rw [htrace', htrace, List.append_assoc]
  · exact (List.mem_append.mp he).elim (hnew e) (hnew' e)

theorem inSession {l : Session} (h : Interference j w₁ w₂) (hl : InSession j l w₁) :
    InSession j l w₂ :=
  hl.allowed h.allowed

theorem own (h : Interference j w₁ w₂) : w₂.own j = w₁.own j := by
  obtain ⟨new, htrace, hnew⟩ := h.trace
  simp only [World.own, htrace, List.filter_append, List.append_right_eq_self]
  exact List.filter_eq_nil_iff.mpr fun e he => by simp [hnew e he]

end Interference

section Sound
variable {i : Nat} {req : ρ} {o : Stmt} {r : o.Res} {w w' : History env ρ} {l l' : Session}

theorem World.exec_step (h : w.exec i req o l = some (r, w', l')) :
    ∃ g, exec env w.trace.length i o w.shared l = some (r, g, l') ∧ w'.shared = g ∧
      w'.trace = w.trace ++ [⟨w.trace.length, i, req, o, r, w.shared, g⟩] := by
  obtain ⟨g, hg, rfl⟩ := World.exec_eq_some.mp h
  exact ⟨g, hg, rfl, rfl⟩

theorem exec_inSession (hl : InSession i l w) (h : w.exec i req o l = some (r, w', l')) :
    InSession i l' w' := by
  obtain ⟨g, hg, rfl, -⟩ := World.exec_step h
  exact (exec_effect hg).isOpen hl

theorem exec_interference {j : Nat} (hij : i ≠ j) (hl : InSession i l w)
    (h : w.exec i req o l = some (r, w', l')) : Interference j w w' := by
  obtain ⟨g, hg, rfl, htrace⟩ := World.exec_step h
  refine ⟨(exec_effect hg).allowed hij hl, _, htrace, fun e he => ?_⟩
  rw [List.mem_singleton.mp he]
  exact hij

theorem exec_sound (hw : Sound w) (hl : InSession i l w)
    (h : w.exec i req o l = some (r, w', l')) : Sound w' := by
  obtain ⟨g, hg, rfl, htrace⟩ := World.exec_step h
  have heff := exec_effect hg
  refine ⟨heff.keepsSchema hl hw.schema, ?_, fun k j hk => ?_, hw.placed.exec h⟩
  · have hlen : w'.trace.length = w.trace.length + 1 := by simp [htrace]
    exact hlen ▸ heff.fresh hl hw.fresh
  · rw [htrace]
    cases heff.locks hk with
    | inl hk =>
        obtain ⟨e, he, hej⟩ := hw.holder k j hk
        exact ⟨e, List.mem_append_left _ he, hej⟩
    | inr hj => exact ⟨_, List.mem_append_right _ (List.mem_singleton_self _), hj.symm⟩

theorem start_inSession (hw : Sound w) (h : ∀ e ∈ w.trace, e.pid ≠ i) : InSession i {} w := by
  refine Constraints.open_nil fun k hk => ?_
  obtain ⟨e, he, hei⟩ := hw.holder k i hk
  exact h e he hei

end Sound

end SecureIam
