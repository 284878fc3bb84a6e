import SecureIam.Db.Results
import SecureIam.Lib.Sequential

/-!
The statements of a session that nobody interferes with, on tables alone: there are
no locks to wait for, and a mapped object is the row that the session sees. The
machine of the database simulates this reading of its statements.
-/
namespace SecureIam
open Lib

instance (τ : Table) : DecidableEq τ.Row :=
  match τ with
  | .users => inferInstanceAs (DecidableEq User)
  | .refreshTokens => inferInstanceAs (DecidableEq RefreshToken)
  | .roles => inferInstanceAs (DecidableEq Role)
  | .permissions => inferInstanceAs (DecidableEq Permission)
  | .rolePermissions => inferInstanceAs (DecidableEq RolePermission)
  | .userRoles => inferInstanceAs (DecidableEq UserRole)
  | .organizations => inferInstanceAs (DecidableEq Organization)
  | .memberships => inferInstanceAs (DecidableEq OrganizationMembership)
  | .auditLogs => inferInstanceAs (DecidableEq AuditLog)

/-- The number of the next step, that of the step which began the transaction, the
versions of the database that commits have replaced, the committed tables, and the
tables with the uncommitted writes on top. -/
structure Solo where
  step : Nat
  began : Option Nat
  before : List Tables
  committed : Tables
  view : Tables

namespace Solo

def next (s : Solo) : Solo := { s with step := s.step + 1 }

def touch (s : Solo) : Solo := { s with step := s.step + 1, began := s.began.or (some s.step) }

def now (s : Solo) (env : Environment) : Time := env.clock (s.began.getD s.step)

def write (s : Solo) (w : Write) : Solo := { s.touch with view := w.apply s.view }

def writeRow (s : Solo) : Option Write → Nat × Solo
  | none => (0, s.touch)
  | some w => (1, s.write w)

/-- Every statement but the operator's, which leaves mapped objects behind, and
SELECTs of what is not in the table. -/
def exec (env : Environment) : Reading sql Solo
  | .utcNow, s => some (env.clock s.step, s.next)
  | .uuid4, s => some (env.uuid s.step, s.next)
  | .tokenUrlsafe, s => some (env.token s.step, s.next)
  | .hashPassword p, s => some (env.hashPassword s.step p, s.next)
  | .select τ q, s =>
      if ∀ r ∈ q s.view, r ∈ s.view.rows τ then some (q s.view, s.touch) else none
  | .selectMembers q order, s => some (order (env.scan s.step (q s.view)), s.touch)
  | .selectAuditLogs q order, s => some (order (env.scan s.step (q s.view)), s.touch)
  | .countAuditLogs q, s => some ((q s.view).length, s.touch)
  | .refresh τ id, s => some ((s.view.rows τ).find? (.primary τ id ∈ τ.keys ·), s.touch)
  | .insert τ draft, s =>
      let r := draft.row (env.uuid s.step) (s.now env)
      if (Write.insert τ r).Ok s.view then some (some r, s.write (.insert τ r))
      else some (none, s.touch)
  | .updateLastLoginAt id t, s =>
      some (s.writeRow (updateWhere .users (·.id = id) (.setLastLoginAt id t) s.view))
  | .updateIsActive _ _, _ => none
  | .revokeIfActive id t, s =>
      some (s.writeRow (updateWhere .refreshTokens (fun r => r.id = id ∧ r.revokedAt = none)
        (.setRevokedAt id t) s.view))
  | .updateRevokedAt id t, s =>
      some (s.writeRow (updateWhere .refreshTokens (·.id = id) (.setRevokedAt id t) s.view))
  | .updateReplacedBy id child, s =>
      if (Write.setReplacedBy id child).Ok s.view then
        let written :=
          s.writeRow (updateWhere .refreshTokens (·.id = id) (.setReplacedBy id child) s.view)
        some (some written.1, written.2)
      else some (none, s.touch)
  | .deleteRolePermission roleId permissionId, s =>
      some (s.writeRow ((s.view.rolePermissions.find? fun r =>
        r.roleId = roleId ∧ r.permissionId = permissionId).map .deleteRolePermission))
  | .deleteUserRole id, s =>
      some (s.writeRow ((s.view.userRoles.find? (·.id = id)).map .deleteUserRole))
  | .deleteMembership id, s =>
      some (s.writeRow ((s.view.memberships.find? (·.id = id)).map .deleteMembership))
  | .commit, s =>
      some ((), { s with
        step := s.step + 1
        began := none
        before := s.committed :: s.before
        committed := s.view })
  | .rollback, s => some ((), { s with step := s.step + 1, began := none, view := s.committed })

@[simp] theorem next_view (s : Solo) : s.next.view = s.view := rfl
@[simp] theorem touch_view (s : Solo) : s.touch.view = s.view := rfl
@[simp] theorem write_view (s : Solo) (w : Write) : (s.write w).view = w.apply s.view := rfl

end Solo

/-- Every mapped object is the row that the session sees. -/
structure Session.Mirrors (l : Session) (t : Tables) : Prop where
  users : ∀ id u, l.users id = some u → u ∈ t.users ∧ u.id = id
  refreshTokens : ∀ id r, l.refreshTokens id = some r → r ∈ t.refreshTokens ∧ r.id = id

namespace Session.Mirrors
variable {l : Session} {t : Tables} {n : Nat} {τ : Table}

theorem empty (t : Tables) : Mirrors {} t :=
  ⟨fun _ _ h => (nomatch h), fun _ _ h => (nomatch h)⟩

theorem object (h : l.Mirrors t) (ht : t.Schema) {r : τ.Row} (hr : r ∈ t.rows τ) :
    l.object τ r = r := by
  cases τ with
  | users =>
      cases hu : l.users r.id with
      | none => simp [Session.object, hu]
      | some u =>
          obtain ⟨hmem, hid⟩ := h.users _ _ hu
          simp only [Session.object, hu, Option.getD_some]
          exact ht.row_unique (τ := .users) (k := .primary .users r.id) hmem hr
            (by simp [Table.keys, hid]) (by simp [Table.keys])
  | refreshTokens =>
      cases hu : l.refreshTokens r.id with
      | none => simp [Session.object, hu]
      | some u =>
          obtain ⟨hmem, hid⟩ := h.refreshTokens _ _ hu
          simp only [Session.object, hu, Option.getD_some]
          exact ht.row_unique (τ := .refreshTokens) (k := (.primary .refreshTokens r.id)) hmem hr
            (by simp [Table.keys, hid]) (by simp [Table.keys])
  | _ => rfl

theorem load (h : l.Mirrors t) {rs : List τ.Row} (hrs : ∀ r ∈ rs, r ∈ t.rows τ) :
    (l.load τ rs).Mirrors t := by
  cases τ with
  | users =>
      refine ⟨fun id u hu => ?_, h.refreshTokens⟩
      cases Option.or_eq_some_iff.mp hu with
      | inl hu => exact h.users id u hu
      | inr hu =>
          exact ⟨hrs u (List.mem_of_find?_eq_some hu.2), by simpa using List.find?_some hu.2⟩
  | refreshTokens =>
      refine ⟨h.users, fun id r hr => ?_⟩
      cases Option.or_eq_some_iff.mp hr with
      | inl hr => exact h.refreshTokens id r hr
      | inr hr =>
          exact ⟨hrs r (List.mem_of_find?_eq_some hr.2), by simpa using List.find?_some hr.2⟩
  | _ => exact h

theorem reload (h : l.Mirrors t) {r : τ.Row} (hr : r ∈ t.rows τ) : (l.reload τ r).Mirrors t := by
  cases τ with
  | users =>
      refine ⟨fun id u hu => ?_, h.refreshTokens⟩
      simp only [Session.reload] at hu
      split at hu
      · obtain rfl := Option.some.inj hu
        exact ⟨hr, by simp [*]⟩
      · exact h.users id u hu
  | refreshTokens =>
      refine ⟨h.users, fun id u hu => ?_⟩
      simp only [Session.reload] at hu
      split at hu
      · obtain rfl := Option.some.inj hu
        exact ⟨hr, by simp [*]⟩
      · exact h.refreshTokens id u hu
  | _ => exact h

/-- More rows do not matter. -/
theorem mono {t' : Tables} (h : l.Mirrors t) (hu : ∀ u ∈ t.users, u ∈ t'.users)
    (hr : ∀ r ∈ t.refreshTokens, r ∈ t'.refreshTokens) : l.Mirrors t' :=
  ⟨fun id u hid => ⟨hu u (h.users id u hid).1, (h.users id u hid).2⟩,
    fun id r hid => ⟨hr r (h.refreshTokens id r hid).1, (h.refreshTokens id r hid).2⟩⟩

theorem insert (h : l.Mirrors t) (r : τ.Row) : l.Mirrors (t.insert τ r) := by
  cases τ
  case users | refreshTokens =>
    exact h.mono (fun _ hu => by simp [Tables.insert, hu]) (fun _ hr => by simp [Tables.insert, hr])
  all_goals exact ⟨h.users, h.refreshTokens⟩

theorem amendUser (h : l.Mirrors t) (id : Uuid) {f : User → User} (hid : ∀ u, (f u).id = u.id) :
    (l.amendUser id f).Mirrors
      { t with users := t.users.map fun u => if u.id = id then f u else u } := by
  refine ⟨fun a u hu => ?_, h.refreshTokens⟩
  simp only [Session.amendUser] at hu
  split at hu
  · rename_i ha
    obtain ⟨x, hx, rfl⟩ := Option.map_eq_some_iff.mp hu
    obtain ⟨hmem, hxid⟩ := h.users a x hx
    exact ⟨List.mem_map.mpr ⟨x, hmem, if_pos (hxid.trans ha)⟩, (hid x).trans hxid⟩
  · rename_i ha
    obtain ⟨hmem, hxid⟩ := h.users a u hu
    exact ⟨List.mem_map.mpr ⟨u, hmem, if_neg (hxid ▸ ha)⟩, hxid⟩

/-- The SET columns land on the mapped object as they do on the row. -/
theorem amendToken (h : l.Mirrors t) {id : Uuid} {f F : RefreshToken → RefreshToken}
    (hid : ∀ r, (f r).id = r.id) (hf : ∀ r ∈ t.refreshTokens, r.id = id → f r = F r) :
    (l.amendToken id f).Mirrors
      { t with refreshTokens := t.refreshTokens.map fun r => if r.id = id then F r else r } := by
  refine ⟨h.users, fun a r hr => ?_⟩
  simp only [Session.amendToken] at hr
  split at hr
  · rename_i ha
    obtain ⟨x, hx, rfl⟩ := Option.map_eq_some_iff.mp hr
    obtain ⟨hmem, hxid⟩ := h.refreshTokens a x hx
    refine ⟨List.mem_map.mpr ⟨x, hmem, ?_⟩, (hid x).trans hxid⟩
    rw [if_pos (hxid.trans ha), hf x hmem (hxid.trans ha)]
  · rename_i ha
    obtain ⟨hmem, hxid⟩ := h.refreshTokens a r hr
    exact ⟨List.mem_map.mpr ⟨r, hmem, if_neg (hxid ▸ ha)⟩, hxid⟩

/-- An UPDATE of no row changes no mapped object. -/
theorem amendToken_none (h : l.Mirrors t) {id : Uuid} {f : RefreshToken → RefreshToken}
    (hid : ∀ r, (f r).id = r.id) (hf : ∀ r ∈ t.refreshTokens, r.id = id → f r = r) :
    (l.amendToken id f).Mirrors t := by
  simpa using h.amendToken (F := fun r => r) hid hf

end Session.Mirrors

/-- The session and the database stand where the reading of them stands. -/
structure Fits (l : Session) (g : Database) (s : Solo) : Prop where
  began : l.began = s.began
  committed : g.state = s.committed
  view : l.view g = s.view
  mirrors : l.Mirrors s.view

section Fits
variable {env : Environment} {i c : Nat} {l l' : Session} {g g' : Database} {s : Solo}

theorem Fits.next (h : Fits l g s) : Fits l g s.next := ⟨h.began, h.committed, h.view, h.mirrors⟩

theorem Fits.touch (h : Fits l g s) : Fits (l.touch s.step) g s.touch :=
  ⟨by simp [Session.touch, Solo.touch, h.began], h.committed, h.view,
    ⟨h.mirrors.users, h.mirrors.refreshTokens⟩⟩

theorem Fits.now (h : Fits l g s) : l.now env s.step = s.now env := by
  simp [Session.now, Solo.now, h.began]

theorem view_push {w : Write} (hw : g.write i w = some g') (hl : l'.pending = l.pending ++ [w]) :
    l'.view g' = w.apply (l.view g) := by
  rw [Session.view, hl, Effect.state_write hw, Store.view_append]
  rfl

/-- A row change, of a row that was found or of none. -/
theorem Fits.writeRow {found : Option Write} {l₁ : Session} (h : Fits l g s)
    (hexec : writeRow i found g l₁ = some (c, g', l')) (hp : l₁.pending = l.pending)
    (hb : l₁.began = (l.touch s.step).began) (hnone : found = none → l₁.Mirrors s.view)
    (hsome : ∀ w, found = some w → l₁.Mirrors (w.apply s.view)) :
    c = (s.writeRow found).1 ∧ Fits l' g' (s.writeRow found).2 := by
  have hbegan : l₁.began = s.touch.began := hb.trans h.touch.began
  cases writeRow_eq_some.mp hexec with
  | inl hexec =>
      obtain ⟨rfl, rfl, rfl, rfl⟩ := hexec
      refine ⟨rfl, hbegan, h.committed, ?_, hnone rfl⟩
      rw [Session.view, hp]
      exact h.view
  | inr hexec =>
      obtain ⟨w, rfl, rfl, hw, rfl⟩ := hexec
      refine ⟨rfl, hbegan, (Effect.state_write hw).trans h.committed, ?_, ?_⟩
      · rw [view_push (l := l) hw (by simp [hp]), h.view]
        rfl
      · exact ⟨(hsome w rfl).users, (hsome w rfl).refreshTokens⟩

theorem Fits.amendToken {p : RefreshToken → Bool} {w : Write} {id : Uuid}
    {f F : RefreshToken → RefreshToken} (h : Fits l g s)
    (hexec : SecureIam.writeRow i (updateWhere .refreshTokens p w s.view) g
      ((l.touch s.step).amendToken id f) = some (c, g', l'))
    (hid : ∀ r, (f r).id = r.id)
    (hw : w.apply s.view = { s.view with
      refreshTokens := s.view.refreshTokens.map fun r => if r.id = id then F r else r })
    (hnone : ∀ r ∈ s.view.refreshTokens, ¬ p r → r.id = id → f r = r)
    (hsome : (∃ r ∈ s.view.refreshTokens, p r) → ∀ r ∈ s.view.refreshTokens, r.id = id →
      f r = F r) : c = (s.writeRow (updateWhere .refreshTokens p w s.view)).1 ∧
      Fits l' g' (s.writeRow (updateWhere .refreshTokens p w s.view)).2 := by
  refine h.writeRow hexec rfl rfl (fun hfound => ?_) (fun w' hfound => ?_)
  · exact h.touch.mirrors.amendToken_none hid fun r hr =>
      hnone r hr (updateWhere_eq_none.mp hfound r hr)
  · obtain ⟨hrow, rfl⟩ := updateWhere_eq_some.mp hfound
    exact hw ▸ h.touch.mirrors.amendToken hid (hsome hrow)

theorem Fits.delete {found : Option Write} (h : Fits l g s)
    (hdel : ∀ w, found = some w → (w.apply s.view).users = s.view.users ∧
      (w.apply s.view).refreshTokens = s.view.refreshTokens)
    (hexec : SecureIam.writeRow i found g (l.touch s.step) = some (c, g', l')) :
    c = (s.writeRow found).1 ∧ Fits l' g' (s.writeRow found).2 := by
  refine h.writeRow hexec rfl rfl (fun _ => h.touch.mirrors) (fun w hw => ?_)
  obtain ⟨hu, hr⟩ := hdel w hw
  exact h.touch.mirrors.mono (fun _ hx => hu ▸ hx) (fun _ hx => hr ▸ hx)

/-- What one statement returns and leaves behind is as the reading says. -/
theorem Fits.exec {o : Stmt} {r r' : o.Res} {s' : Solo} (h : Fits l g s) (hs : s.view.Schema)
    (hstep : Solo.exec env o s = some (r, s'))
    (hexec : exec env s.step i o g l = some (r', g', l')) :
    r' = r ∧ Fits l' g' s' := by
  have hmirrors := h.mirrors
  cases o with
  | utcNow | uuid4 | tokenUrlsafe | hashPassword _ =>
      simp only [SecureIam.exec, Solo.exec, Option.some.injEq, Prod.mk.injEq] at hexec hstep
      obtain ⟨rfl, rfl, rfl⟩ := hexec
      obtain ⟨rfl, rfl⟩ := hstep
      exact ⟨rfl, h.next⟩
  | selectMembers _ _ | selectAuditLogs _ _ | countAuditLogs _ =>
      simp only [SecureIam.exec, Solo.exec, Option.some.injEq, Prod.mk.injEq] at hexec hstep
      obtain ⟨rfl, rfl, rfl⟩ := hexec
      obtain ⟨rfl, rfl⟩ := hstep
      exact ⟨by rw [h.view], h.touch⟩
  | select τ q =>
      simp only [Solo.exec] at hstep
      split at hstep
      · rename_i hrows
        obtain ⟨rfl, rfl⟩ := Prod.mk.inj (Option.some.inj hstep)
        obtain ⟨rfl, rfl, rfl⟩ := exec_select hexec
        rw [h.view]
        have hobject : (q s.view).map (l.object τ) = q s.view := by
          refine (List.map_congr_left fun r hr => ?_).trans (List.map_id _)
          exact hmirrors.object hs (hrows r hr)
        refine ⟨hobject, ?_, h.committed, ?_, h.touch.mirrors.load hrows⟩
        · rw [← h.touch.began]
          cases τ <;> rfl
        · rw [Session.view, Session.load_pending]
          exact h.view
      · cases hstep
  | refresh τ id =>
      simp only [SecureIam.exec, h.view] at hexec
      obtain ⟨rfl, rfl⟩ := Prod.mk.inj (Option.some.inj hstep)
      split at hexec
      · rename_i hfind
        simp only [Option.some.injEq, Prod.mk.injEq] at hexec
        obtain ⟨rfl, rfl, rfl⟩ := hexec
        exact ⟨hfind.symm, h.touch⟩
      · rename_i x hfind
        simp only [Option.some.injEq, Prod.mk.injEq] at hexec
        obtain ⟨rfl, rfl, rfl⟩ := hexec
        refine ⟨hfind.symm, ?_, h.committed, ?_, h.touch.mirrors.reload
          (List.mem_of_find?_eq_some hfind)⟩
        · rw [← h.touch.began]
          cases τ <;> rfl
        · rw [Session.view, Session.reload_pending]
          exact h.view
  | insert τ draft =>
      simp only [SecureIam.exec, h.view, h.now, Option.map_eq_some_iff] at hexec
      obtain ⟨g₁, hw, hexec⟩ := hexec
      simp only [Solo.exec] at hstep
      split at hstep
      all_goals
        rename_i hok
        simp only [hok, if_true, if_false, Prod.mk.injEq] at hexec
        obtain ⟨rfl, rfl, rfl⟩ := hexec
        obtain ⟨rfl, rfl⟩ := Prod.mk.inj (Option.some.inj hstep)
      · refine ⟨rfl, ?_, (Effect.state_write hw).trans h.committed, ?_, ?_⟩
        · rw [show (s.write _).began = s.touch.began from rfl, ← h.touch.began]
          cases τ <;> rfl
        · rw [view_push (l := l) hw (by simp), h.view]
          rfl
        · refine Session.Mirrors.reload (t := (s.view.insert τ _)) ?_
            (by simp [Tables.rows_insert_self])
          exact ⟨(h.touch.mirrors.insert _).users, (h.touch.mirrors.insert _).refreshTokens⟩
      · exact ⟨rfl, h.touch⟩
  | updateLastLoginAt id t =>
      obtain ⟨rfl, rfl⟩ := Prod.mk.inj (Option.some.inj hstep)
      simp only [SecureIam.exec, h.view] at hexec
      have hamend := h.touch.mirrors.amendUser id (f := fun u => { u with lastLoginAt := some t })
        fun _ => rfl
      refine h.writeRow hexec rfl rfl (fun hnone => ?_) (fun w hw => ?_)
      · refine hamend.mono (fun u hu => ?_) (fun r hr => hr)
        obtain ⟨x, hx, rfl⟩ := List.mem_map.mp hu
        have hne := updateWhere_eq_none.mp hnone x hx
        rw [if_neg (by simpa using hne)]
        exact hx
      · obtain ⟨-, rfl⟩ := updateWhere_eq_some.mp hw
        exact hamend
  | updateIsActive id active => cases hstep
  | revokeIfActive id t =>
      obtain ⟨rfl, rfl⟩ := Prod.mk.inj (Option.some.inj hstep)
      simp only [SecureIam.exec, h.view] at hexec
      refine h.amendToken hexec (fun r => ?_) rfl (fun r hr hp hrid => ?_)
        (fun hrow r hr hrid => ?_)
      · split <;> rfl
      · rw [if_neg fun hlive => hp (by simp [hrid, hlive])]
      · obtain ⟨x, hx, hp⟩ := hrow
        simp only [decide_eq_true_eq] at hp
        have hxr := hs.row_unique (τ := .refreshTokens) (k := .primary .refreshTokens id) hx hr
          (by simp [Table.keys, hp.1]) (by simp [Table.keys, hrid])
        rw [if_pos (hxr ▸ hp.2)]
  | updateRevokedAt id t =>
      obtain ⟨rfl, rfl⟩ := Prod.mk.inj (Option.some.inj hstep)
      simp only [SecureIam.exec, h.view] at hexec
      refine h.amendToken hexec (fun r => rfl) rfl (fun r hr hp hrid => ?_) (fun _ _ _ _ => rfl)
      exact absurd (by simp [hrid]) hp
  | updateReplacedBy id child =>
      simp only [Solo.exec] at hstep
      simp only [SecureIam.exec, h.view] at hexec
      split at hstep
      · rename_i hok
        rw [if_pos hok] at hexec
        obtain ⟨rfl, rfl⟩ := Prod.mk.inj (Option.some.inj hstep)
        obtain ⟨⟨c, g₁, l₁⟩, hrow, heq⟩ := Option.map_eq_some_iff.mp hexec
        obtain ⟨rfl, rfl, rfl⟩ := heq
        have hwritten := h.amendToken hrow (fun r => rfl) rfl
          (fun r hr hp hrid => absurd (by simp [hrid]) hp) (fun _ _ _ _ => rfl)
        exact ⟨congrArg some hwritten.1, hwritten.2⟩
      · rename_i hok
        rw [if_neg hok] at hexec
        obtain ⟨rfl, rfl⟩ := Prod.mk.inj (Option.some.inj hstep)
        simp only [Option.some.injEq, Prod.mk.injEq] at hexec
        obtain ⟨rfl, rfl, rfl⟩ := hexec
        exact ⟨rfl, h.touch⟩
  | deleteRolePermission roleId permissionId =>
      obtain ⟨rfl, rfl⟩ := Prod.mk.inj (Option.some.inj hstep)
      simp only [SecureIam.exec, h.view] at hexec
      refine h.delete (fun w hw => ?_) hexec
      obtain ⟨x, -, rfl⟩ := Option.map_eq_some_iff.mp hw
      exact ⟨rfl, rfl⟩
  | deleteUserRole id | deleteMembership id =>
      obtain ⟨rfl, rfl⟩ := Prod.mk.inj (Option.some.inj hstep)
      simp only [SecureIam.exec, h.view] at hexec
      refine h.delete (fun w hw => ?_) hexec
      obtain ⟨x, -, rfl⟩ := Option.map_eq_some_iff.mp hw
      exact ⟨rfl, rfl⟩
  | commit =>
      obtain ⟨rfl, rfl⟩ := Prod.mk.inj (Option.some.inj hstep)
      obtain ⟨rfl, rfl⟩ := exec_commit hexec
      exact ⟨rfl, rfl, h.view, h.view, ⟨hmirrors.users, hmirrors.refreshTokens⟩⟩
  | rollback =>
      obtain ⟨rfl, rfl⟩ := Prod.mk.inj (Option.some.inj hstep)
      simp only [SecureIam.exec, Option.some.injEq, Prod.mk.injEq] at hexec
      obtain ⟨-, rfl, rfl⟩ := hexec
      exact ⟨rfl, rfl, h.committed, h.committed, .empty _⟩

end Fits

namespace Solo
variable {env : Environment} {s s' s₁ s₂ s₃ : Solo}

/-- Keys and foreign keys hold of what the session sees, and the ids that are still to be
drawn are not in use. -/
structure Good (env : Environment) (s : Solo) : Prop where
  schema : s.view.Schema
  undrawn : ∀ m τ, s.step ≤ m → ¬ s.view.hasKey (.primary τ (env.uuid m))

/-- What was committed at `s` has been committed on the way to `s'`. -/
def Past (s s' : Solo) : Prop := (s.committed :: s.before) <:+ (s'.committed :: s'.before)

theorem Past.refl (s : Solo) : Past s s := List.suffix_rfl

theorem Past.trans (h : Past s₁ s₂) (h' : Past s₂ s₃) : Past s₁ s₃ := List.IsSuffix.trans h h'

/-- Only the end of a transaction changes what is committed. -/
inductive Moves (s : Solo) : Stmt → Solo → Prop
  | keep {o : Stmt} (ho : o.ends = false) {s' : Solo} (hstep : s'.step = s.step + 1)
      (hbefore : s'.before = s.before) (hcommitted : s'.committed = s.committed) : Moves s o s'
  | commit : Moves s .commit ⟨s.step + 1, none, s.committed :: s.before, s.view, s.view⟩
  | rollback : Moves s .rollback ⟨s.step + 1, none, s.before, s.committed, s.committed⟩

theorem moves_writeRow {o : Stmt} (ho : o.ends = false) (found : Option Write) :
    Moves s o (s.writeRow found).2 := by
  cases found <;> exact .keep ho rfl rfl rfl

theorem exec_moves {o : Stmt} {r : o.Res} (h : exec env o s = some (r, s')) : Moves s o s' := by
  cases o with
  | updateIsActive id active => cases h
  | select τ q | insert τ draft =>
      simp only [exec] at h
      split at h <;> cases h <;> exact .keep rfl rfl rfl rfl
  | updateReplacedBy id child =>
      simp only [exec] at h
      split at h <;> cases h
      · exact moves_writeRow rfl _
      · exact .keep rfl rfl rfl rfl
  | updateLastLoginAt _ _ | revokeIfActive _ _ | updateRevokedAt _ _ | deleteRolePermission _ _
  | deleteUserRole _ | deleteMembership _ =>
      obtain ⟨-, rfl⟩ := Prod.mk.inj (Option.some.inj h)
      exact moves_writeRow rfl _
  | commit =>
      cases h
      exact .commit
  | rollback =>
      cases h
      exact .rollback
  | _ =>
      cases h
      exact .keep rfl rfl rfl rfl

private theorem ok_of_none {w : Write} {t : Tables} (ha : w.adds = []) (hr : w.requires = []) :
    w.Ok t :=
  ⟨fun k hk => by simp [ha] at hk, fun k hk => by simp [hr] at hk⟩

theorem schema_writeRow {found : Option Write} (hs : s.view.Schema)
    (hok : ∀ w, found = some w → w.Ok s.view) : (s.writeRow found).2.view.Schema := by
  cases found with
  | none => exact hs
  | some w => exact Write.schema_apply hs (hok w rfl)

/-- The constraints hold of what a session sees, whatever statements it issues. -/
theorem exec_schema {o : Stmt} {r : o.Res} (h : exec env o s = some (r, s')) (hs : s.view.Schema)
    (hc : s.committed.Schema) : s'.view.Schema := by
  cases o with
  | updateIsActive id active => cases h
  | select τ q =>
      simp only [exec] at h
      split at h <;> cases h
      exact hs
  | insert τ draft =>
      simp only [exec] at h
      split at h <;> cases h
      · exact Write.schema_apply hs ‹_›
      · exact hs
  | updateReplacedBy id child =>
      simp only [exec] at h
      split at h <;> cases h
      · refine schema_writeRow hs fun w hw => ?_
        obtain ⟨-, rfl⟩ := updateWhere_eq_some.mp hw
        assumption
      · exact hs
  | updateLastLoginAt _ _ | revokeIfActive _ _ | updateRevokedAt _ _ =>
      obtain ⟨-, rfl⟩ := Prod.mk.inj (Option.some.inj h)
      refine schema_writeRow hs fun w hw => ?_
      obtain ⟨-, rfl⟩ := updateWhere_eq_some.mp hw
      exact ok_of_none rfl rfl
  | deleteRolePermission _ _ | deleteUserRole _ | deleteMembership _ =>
      obtain ⟨-, rfl⟩ := Prod.mk.inj (Option.some.inj h)
      refine schema_writeRow hs fun w hw => ?_
      obtain ⟨x, -, rfl⟩ := Option.map_eq_some_iff.mp hw
      exact ok_of_none rfl rfl
  | rollback =>
      cases h
      exact hc
  | _ =>
      cases h
      exact hs

theorem Moves.schema {o : Stmt} (h : Moves s o s') (hs : s.view.Schema) (hc : s.committed.Schema) :
    s'.committed.Schema := by
  cases h with
  | keep _ _ _ hcommitted => exact hcommitted ▸ hc
  | commit => exact hs
  | rollback => exact hc

theorem Moves.step {o : Stmt} (h : Moves s o s') : s'.step = s.step + 1 := by
  cases h with
  | keep _ hstep => exact hstep
  | commit | rollback => rfl

theorem Moves.past {o : Stmt} (h : Moves s o s') : Past s s' := by
  cases h with
  | keep _ _ hbefore hcommitted =>
      have hpast : s.committed :: s.before = s'.committed :: s'.before := by
        rw [hbefore, hcommitted]
      exact ⟨[], hpast⟩
  | commit => exact List.suffix_cons _ _
  | rollback => exact List.suffix_rfl

end Solo

/-- How many transactions thread `i` has committed. -/
def Lib.World.commits {env : Environment} {ρ : Type} (w : History env ρ) (i : Nat) : Nat :=
  (w.own i).countP fun e => match e.op with
    | .commit => true
    | _ => false

/-- Thread `i` stands in the history where the reading of its statements stands. -/
structure Solo.Describes {env : Environment} {ρ : Type} (i : Nat) (l : Session) (w : History env ρ)
    (s : Solo) : Prop where
  fits : Fits l w.shared s
  view : s.view.Schema
  committed : s.committed.Schema
  step : w.trace.length = s.step
  commits : w.commits i = s.before.length

section Describes
variable {env : Environment} {ρ α : Type} {i : Nat} {req : ρ} {l l' : Session}
  {w w' : History env ρ} {s s' : Solo} {p : Program sql Error α} {out out' : Except Error α}

/-- Between two calls: nothing is pending. -/
def Solo.start (n : Nat) (t : Tables) : Solo := ⟨n, none, [], t, t⟩

theorem describes_start (hw : w.shared.state.Schema) (hi : ∀ e ∈ w.trace, e.pid ≠ i) :
    Solo.Describes i {} w (.start w.trace.length w.shared.state) := by
  refine ⟨⟨rfl, rfl, Session.view_of_nil rfl _, .empty _⟩, hw, hw, rfl, ?_⟩
  have hown : w.own i = [] := List.filter_eq_nil_iff.mpr fun e he => by simp [hi e he]
  rw [World.commits, hown]
  rfl

theorem solo_simulates : Program.Simulates (M := machine env) i req (Solo.exec env)
    (Solo.Describes i) := by
  intro o l w s r s' r' w' l' h hstep hexec
  obtain ⟨g, hg, hshared, htrace⟩ := World.exec_step hexec
  have hmoves := Solo.exec_moves hstep
  rw [h.step] at hg
  obtain ⟨hr, hfits⟩ := h.fits.exec h.view hstep hg
  refine ⟨hr, hshared ▸ hfits, Solo.exec_schema hstep h.view h.committed,
    hmoves.schema h.view h.committed, ?_, ?_⟩
  · rw [hmoves.step, ← h.step, htrace]
    simp
  · have hcommits := h.commits
    rw [World.commits] at hcommits
    rw [World.commits, World.own_exec_self hexec, List.countP_append, hcommits]
    cases hmoves with
    | keep ho _ hbefore =>
        rw [hbefore]
        cases o <;> first | rfl | cases ho
    | commit | rollback => rfl

/-- A call that runs alone ends as the reading says. -/
theorem solo_run (hw : w.shared.state.Schema) (hi : ∀ e ∈ w.trace, e.pid ≠ i)
    (he : p.eval (Solo.exec env) (.start w.trace.length w.shared.state) = some (out, s'))
    (hr : p.run i req (machine env).start w = some (out', l', w')) :
    out' = out ∧ Solo.Describes i l' w' s' :=
  solo_simulates.run (describes_start hw hi) he hr

/-- Where a call is cut off, what is committed is one of the versions it has on its way. -/
theorem solo_runFor (hw : w.shared.state.Schema) (hi : ∀ e ∈ w.trace, e.pid ≠ i)
    (he : p.eval (Solo.exec env) (.start w.trace.length w.shared.state) = some (out, s')) {n : Nat}
    (hr : p.runFor i req n (machine env).start w = some w') :
    ∃ before, w'.commits i = before.length ∧
      (w'.shared.state :: before) <:+ (s'.committed :: s'.before) := by
  obtain ⟨l'', s'', hdescribes, -, hpast⟩ := solo_simulates.runFor (P := Solo.Past) Solo.Past.refl
    Solo.Past.trans (fun h => (Solo.exec_moves h).past) (describes_start hw hi) he hr
  refine ⟨s''.before, hdescribes.commits, ?_⟩
  rw [hdescribes.fits.committed]
  exact hpast

end Describes

end SecureIam
