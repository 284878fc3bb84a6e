import SecureIam.Services.Runs
import SecureIam.Services.Statements
import SecureIam.Tokens.Rules

/-!
Where the rows of `users` come from. Each of them is the work of one `register` call, and
stays active while no operator intervenes; the rules say what a call may rely on.
-/
namespace SecureIam
open Lib
variable {env : Environment} {i : Nat} {req : Request} {o : Stmt} {r : o.Res} {l l' : Session}
  {u v w w' : History env Request}

/-- The statement has inserted a user. -/
def Stmt.Registers : (o : Stmt) → o.Res → Prop
  | .insert .users _, row => row ≠ none
  | _, _ => False

/-- The row was inserted by this statement of a `register` call. -/
def Account (user : User) (e : Entry (machine env) Request) : Prop :=
  ∃ email password n, e.request = .register email password ∧ Stmt.Registers e.op e.result ∧
    user.id = env.uuid e.step ∧ user.email = env.lower email ∧
      user.passwordHash = env.hashPassword n password

def Request.SetsIsActive (req : Request) : Prop := ∃ id active, req = .setIsActive id active

structure AccountInv (w : History env Request) : Prop where
  sound : Sound w
  account : ∀ user ∈ w.shared.state.users, ∃ e ∈ w.trace, Account user e
  active : (∀ e ∈ w.trace, ¬ e.request.SetsIsActive) →
    ∀ user ∈ w.shared.state.users, user.isActive = true

/-- The columns that identify the account are never written again. -/
theorem account_apply {p : Write} {t : Tables} {user : User} (h : user ∈ (p.apply t).users) :
    ∃ user₀, (user₀ ∈ t.users ∨ p = .insert .users user₀) ∧
      Table.users.fixed user₀ = Table.users.fixed user ∧
      (user.isActive = user₀.isActive ∨ ∃ id active, p = .setIsActive id active) := by
  cases p with
  | insert τ row =>
      cases τ
      case users =>
        cases List.mem_append.mp h with
        | inl h => exact ⟨user, .inl h, rfl, .inl rfl⟩
        | inr h => exact ⟨user, .inr (List.mem_singleton.mp h ▸ rfl), rfl, .inl rfl⟩
      all_goals exact ⟨user, .inl h, rfl, .inl rfl⟩
  | setLastLoginAt id now =>
      obtain ⟨user₀, hmem, rfl⟩ := List.mem_map.mp h
      refine ⟨user₀, .inl hmem, ?_, .inl ?_⟩ <;> split <;> rfl
  | setIsActive id active =>
      obtain ⟨user₀, hmem, rfl⟩ := List.mem_map.mp h
      refine ⟨user₀, .inl hmem, ?_, .inr ⟨id, active, rfl⟩⟩
      split <;> rfl
  | _ => exact ⟨user, .inl h, rfl, .inl rfl⟩

theorem account_view {ws : List Write} {t : Tables} {user : User}
    (h : user ∈ (Store.view (T := tableStore) ws t).users) :
    ∃ user₀, (user₀ ∈ t.users ∨ .insert .users user₀ ∈ ws) ∧
      Table.users.fixed user₀ = Table.users.fixed user ∧
      (user.isActive = user₀.isActive ∨ ∃ id active, .setIsActive id active ∈ ws) := by
  induction ws generalizing t with
  | nil => exact ⟨user, .inl h, rfl, .inl rfl⟩
  | cons p ws ih =>
      obtain ⟨user₁, hmem, hfixed, hactive⟩ := ih h
      have later : ∀ {q : Write}, q ∈ ws → q ∈ p :: ws := List.mem_cons_of_mem p
      cases hmem with
      | inr hmem =>
          exact ⟨user₁, .inr (later hmem), hfixed, hactive.imp_right fun ⟨id, active, hset⟩ =>
            ⟨id, active, later hset⟩⟩
      | inl hmem =>
          obtain ⟨user₀, hmem₀, hfixed₀, hactive₀⟩ := account_apply hmem
          refine ⟨user₀, hmem₀.imp_right ?_, hfixed₀.trans hfixed, ?_⟩
          · intro heq
            exact heq ▸ List.mem_cons_self
          · cases hactive with
            | inr hset =>
                obtain ⟨id, active, hset⟩ := hset
                exact .inr ⟨id, active, later hset⟩
            | inl heq =>
                refine hactive₀.imp heq.trans fun hset => ?_
                obtain ⟨id, active, rfl⟩ := hset
                exact ⟨id, active, List.mem_cons_self⟩

/-- A pending write has the cause that `AccountInv` asks for. -/
def Write.Founded (w : History env Request) : Write → Prop
  | .insert .users user => user.isActive = true ∧ ∃ e ∈ w.trace, Account user e
  | .setIsActive _ _ => ∃ e ∈ w.trace, e.request.SetsIsActive
  | _ => True

def Session.Founded (l : Session) (w : History env Request) : Prop := ∀ p ∈ l.pending, p.Founded w

theorem Session.Founded.mono (h : l.Founded w) (hsub : w.trace ⊆ w'.trace) : l.Founded w' := by
  intro p hp
  have hfounded := h p hp
  cases p with
  | insert τ row =>
      cases τ
      case users =>
        obtain ⟨hactive, e, he, haccount⟩ := hfounded
        exact ⟨hactive, e, hsub he, haccount⟩
      all_goals trivial
  | setIsActive id active =>
      obtain ⟨e, he, hset⟩ := hfounded
      exact ⟨e, hsub he, hset⟩
  | _ => trivial

theorem Session.Founded.exec (h : l.Founded w) (hexec : w.exec i req o l = some (r, w', l'))
    (ho : ∀ p, o.Writes p → p.Founded w') : l'.Founded w' := by
  obtain ⟨g, hg, -, htrace⟩ := World.exec_step hexec
  have hkept := h.mono (htrace ▸ List.subset_append_left _ _ : w.trace ⊆ w'.trace)
  have heff := exec_effect hg
  cases hends : o.ends with
  | true =>
      intro p hp
      rw [(heff.ended hends).2.1] at hp
      cases hp
  | false =>
      obtain ⟨-, -, us, hpending, hus⟩ := heff.grows hends
      intro p hp
      rw [hpending, List.mem_append] at hp
      exact hp.elim (hkept p) fun hp => ho p (hus p hp)

theorem Account.fixed {user user' : User} {e : Entry (machine env) Request} (h : Account user e)
    (heq : Table.users.fixed user = Table.users.fixed user') : Account user' e := by
  obtain ⟨email, password, n, hreq, hinsert, hid, hemail, hhash⟩ := h
  simp only [Table.fixed, User.mk.injEq] at heq
  obtain ⟨hid', hemail', hhash', -⟩ := heq
  exact ⟨email, password, n, hreq, hinsert, hid' ▸ hid, hemail' ▸ hemail, hhash' ▸ hhash⟩

theorem exec_trace_subset (h : w.exec i req o l = some (r, w', l')) : w.trace ⊆ w'.trace := by
  rw [World.exec_trace h]
  exact List.subset_append_left _ _

/-- Any statement keeps the invariant, if all that its session has pending is founded. -/
theorem AccountInv.exec (hw : AccountInv w) (hl : InSession i l w) (hfounded : l.Founded w)
    (h : w.exec i req o l = some (r, w', l')) : AccountInv w' := by
  obtain ⟨g, hg, hshared, -⟩ := World.exec_step h
  have hsub := exec_trace_subset h
  have heff := exec_effect hg
  rw [← hshared] at heff
  have hkeeps : w'.shared.state = w.shared.state ∨
      w'.shared.state = Store.view (T := tableStore) l.pending w.shared.state := by
    cases ho : o.ends with
    | false => exact .inl (heff.grows ho).1
    | true => exact (heff.ended ho).2.2
  refine ⟨exec_sound hw.sound hl h, ?_, ?_⟩
  · intro user huser
    cases hkeeps with
    | inl hsame =>
        obtain ⟨e, he, haccount⟩ := hw.account user (hsame ▸ huser)
        exact ⟨e, hsub he, haccount⟩
    | inr hview =>
        rw [hview] at huser
        obtain ⟨user₀, hmem, hfixed, -⟩ := account_view huser
        have hcause : ∃ e ∈ w.trace, Account user₀ e := hmem.elim (hw.account user₀) fun hp =>
          (hfounded _ hp).2
        obtain ⟨e, he, haccount⟩ := hcause
        exact ⟨e, hsub he, haccount.fixed hfixed⟩
  · intro hnobody user huser
    have hnobody' : ∀ e ∈ w.trace, ¬ e.request.SetsIsActive := fun e he => hnobody e (hsub he)
    cases hkeeps with
    | inl hsame => exact hw.active hnobody' user (hsame ▸ huser)
    | inr hview =>
        rw [hview] at huser
        obtain ⟨user₀, hmem, -, hactive⟩ := account_view huser
        cases hactive with
        | inl heq =>
            exact heq.trans (hmem.elim (hw.active hnobody' user₀) fun hp => (hfounded _ hp).1)
        | inr hset =>
            obtain ⟨id, active, hp⟩ := hset
            obtain ⟨e, he, hset⟩ := hfounded _ hp
            exact absurd hset (hnobody' e he)

/-- The id of a row tells which statement has inserted it. -/
theorem AccountInv.account_of_step (hw : AccountInv w) {user : User}
    (huser : user ∈ w.shared.state.users) {e : Entry (machine env) Request} (he : e ∈ w.trace)
    (hid : user.id = env.uuid e.step) : Account user e := by
  obtain ⟨e', he', haccount⟩ := hw.account user huser
  obtain ⟨-, -, -, -, -, hid', -⟩ := id haccount
  have hstep : e.step = e'.step := env.uuid_injective _ _ (hid.symm.trans hid')
  rwa [hw.sound.placed.step_inj he he' hstep]

/-- Calls rely on what lasts: no user is ever deleted. -/
def accountProtocol (env : Environment) : Protocol (machine env) Request where
  inv := AccountInv
  loc := InSession
  rely := Interference
  guar _ _ _ w w' := w.shared.state.Lasts w'.shared.state
  rely_refl := Interference.refl
  rely_trans := Interference.trans
  loc_start hinv hnew := start_inSession hinv.sound hnew
  loc_rely hloc hrely := hrely.inSession hloc
  loc_exec hloc hexec := exec_inSession hloc hexec
  exec_rely hij _ hloc hexec _ _ := exec_interference hij hloc hexec

theorem Lib.Protocol.Later.founded (h : (accountProtocol env).Later i l u v) (hl : l.Founded u) :
    l.Founded v := by
  obtain ⟨new, htrace, -⟩ := h.1.trace
  exact hl.mono (htrace ▸ List.subset_append_left _ _)

/-- Thread `i`, left in `u` by its last statement, got `o` through in `v` and is in `w`. -/
structure Issued (i : Nat) (req : Request) (o : Stmt) (r : o.Res) (l l' : Session)
    (u v w : History env Request) : Prop where
  later : (accountProtocol env).Later i l u v
  exec : v.exec i req o l = some (r, w, l')
  inv : AccountInv w

/-- The statement neither inserts a user nor publishes a change of `users`. -/
def Lib.Entry.SparesUsers (e : Entry (machine env) Request) : Prop :=
  ¬ Stmt.Registers e.op e.result ∧ e.after.state.users = e.before.state.users

/-- Thread `i` went from `w` to `w'` by statements of which `P` holds. -/
structure Onward (P : Entry (machine env) Request → Prop) (i : Nat) (w w' : History env Request) :
    Prop where
  lasts : w.shared.state.Lasts w'.shared.state
  own : ∃ new, w'.own i = w.own i ++ new ∧ ∀ e ∈ new, P e

section Onward
variable {P : Entry (machine env) Request → Prop}

theorem Onward.trans (h : Onward P i u v) (h' : Onward P i v w) : Onward P i u w := by
  obtain ⟨new, hown, hnew⟩ := h.own
  obtain ⟨new', hown', hnew'⟩ := h'.own
  refine ⟨fun k hk hkey => h'.lasts k hk (h.lasts k hk hkey), new ++ new', ?_, fun e he => ?_⟩
  · rw [hown', hown, List.append_assoc]
  · exact (List.mem_append.mp he).elim (hnew e) (hnew' e)

theorem Onward.weaken (h : Onward P i u w) : Onward (fun _ => True) i u w := by
  obtain ⟨new, hown, -⟩ := h.own
  exact ⟨h.lasts, new, hown, fun _ _ => trivial⟩

theorem Onward.mem (h : Onward P i u w) {e : Entry (machine env) Request} (he : e ∈ u.own i) :
    e ∈ w.own i := by
  obtain ⟨new, hown, -⟩ := h.own
  exact hown ▸ List.mem_append_left _ he

theorem Onward.all (h : Onward P i u w) (hu : ∀ e ∈ u.own i, P e) : ∀ e ∈ w.own i, P e := by
  obtain ⟨new, hown, hnew⟩ := h.own
  intro e he
  rw [hown, List.mem_append] at he
  exact he.elim (hu e) (hnew e)

theorem Onward.head (h : Onward P i u w) {e : Entry (machine env) Request}
    (he : (u.own i).head? = some e) :
    (w.own i).head? = some e := by
  obtain ⟨new, hown, -⟩ := h.own
  rw [hown, List.head?_append, he]
  rfl

theorem Lib.Protocol.Later.onward (h : (accountProtocol env).Later i l u v) : Onward P i u v :=
  ⟨h.1.allowed.lasts, [], by rw [h.1.own, List.append_nil], by simp⟩

theorem Issued.own (h : Issued i req o r l l' u v w) :
    w.own i = u.own i ++ [entry i req o r v w] := by
  rw [World.own_exec_self h.exec, h.later.1.own]

theorem Issued.mem_own (h : Issued i req o r l l' u v w) : entry i req o r v w ∈ w.own i := by
  rw [h.own]
  exact List.mem_append_right _ (List.mem_singleton_self _)

theorem Issued.lasts (h : Issued i req o r l l' u v w) : u.shared.state.Lasts w.shared.state :=
  fun k hk hkey => exec_lasts h.later.2.2 h.exec k hk (h.later.1.allowed.lasts k hk hkey)

theorem Issued.onward (h : Issued i req o r l l' u v w) (hP : P (entry i req o r v w)) :
    Onward P i u w :=
  ⟨h.lasts, [_], h.own, fun _ he => List.mem_singleton.mp he ▸ hP⟩

theorem Issued.result (h : Issued i req o r l l' u v w) :
    SecureIam.exec env v.trace.length i o v.shared l = some (r, w.shared, l') := by
  obtain ⟨g, hg, hw, -⟩ := World.exec_step h.exec
  exact hw ▸ hg

/-- Inside a transaction nothing is published. -/
theorem Issued.state (h : Issued i req o r l l' u v w) (ho : o.ends = false) :
    w.shared.state = v.shared.state :=
  ((exec_effect h.result).grows ho).1

theorem Issued.spares (h : Issued i req o r l l' u v w) (ho : o.ends = false)
    (hr : ¬ o.Registers r) :
    Onward Lib.Entry.SparesUsers i u w :=
  h.onward ⟨hr, congrArg Tables.users (h.state ho)⟩

end Onward

section Rules
variable {α : Type} {Q : Protocol.Post (machine env) Request Error α}

theorem Session.founded_nil (hp : l.pending = []) : l.Founded w := by
  intro p hmem
  rw [hp] at hmem
  cases hmem

/-- The rule of every statement. -/
theorem wp_issue {f : o.Res → App α} (hl : l.Founded u)
    (h : ∀ v r w l', Issued i req o r l l' u v w → (accountProtocol env).wp i req Q (f r) l' w) :
    (accountProtocol env).wp i req Q ((App.issue o).bind f) l u := by
  intro v hv r w l' hexec
  have hinv := hv.2.1.exec hv.2.2 (hv.founded hl) hexec
  exact ⟨hinv, exec_lasts hv.2.2 hexec, h v r w l' ⟨hv, hexec, hinv⟩⟩

theorem wp_reading {τ : Table} {q : Tables → List τ.Row} {f : List τ.Row → App α}
    (hp : l.pending = [])
    (h : ∀ v w l', Issued i req (.select τ q) ((q v.shared.state).map (l.object τ)) l l' u v w →
      l'.pending = [] → (accountProtocol env).wp i req Q (f ((q v.shared.state).map (l.object τ)))
        l' w) :
    (accountProtocol env).wp i req Q ((App.select τ q).bind f) l u := by
  refine wp_issue (o := .select τ q) (Session.founded_nil hp) fun v r w l' hissued => ?_
  obtain ⟨rfl, -, rfl⟩ := exec_select hissued.result
  rw [Session.view_of_nil hp] at hissued ⊢
  exact h v w _ hissued (by simp [hp])

/-- `session.refresh` of a row that nobody can delete. -/
theorem wp_reload {τ : Table} {id : Uuid} {f : τ.Row → App α} (hp : l.pending = []) (hτ : ¬ τ.Link)
    (hkey : u.shared.state.hasKey (.primary τ id))
    (h : ∀ w l' row, AccountInv w → Onward Lib.Entry.SparesUsers i u w → l'.pending = [] →
      row ∈ w.shared.state.rows τ → .primary τ id ∈ τ.keys row → (accountProtocol env).wp i req Q
        (f row) l' w) :
    (accountProtocol env).wp i req Q ((App.refresh τ id).bind f) l u := by
  simp only [App.refresh, Program.bind_def, Program.bind_assoc]
  refine wp_issue (o := .refresh τ id) (Session.founded_nil hp) fun v r w l' hissued => ?_
  have hkey' : v.shared.state.hasKey (.primary τ id) := hissued.later.1.allowed.lasts _ hτ hkey
  rw [← Session.view_of_nil hp] at hkey'
  obtain ⟨row, hrow, hid, rfl, hshared, rfl⟩ := exec_refresh hissued.result hkey'
  rw [Session.view_of_nil hp, ← hshared] at hrow
  have hspares := hissued.spares rfl (by simp [Stmt.Registers])
  exact h w _ row hissued.inv hspares (by simp [hp]) hrow hid

/-- `session.add(row)`, the commit and the reload, of a table without unique columns. -/
theorem wp_add {τ : Table} {draft : τ.Draft} {key : τ.Row → Uuid} {f : τ.Row → App α}
    (hτ : ¬ τ.Link) (husers : τ ≠ .users) (hp : l.pending = [])
    (hkeys : ∀ n now, τ.keys (draft.row n now) = [.primary τ n])
    (hkey : ∀ n now, key (draft.row n now) = n)
    (href : ∀ n now, ∀ k ∈ τ.references (draft.row n now), u.shared.state.hasKey k)
    (h : ∀ w l' row, AccountInv w → Onward Lib.Entry.SparesUsers i u w → l'.pending = [] →
      (∃ e ∈ w.own i, ∃ n now, draft.row n now ∈ e.after.state.rows τ) →
      (accountProtocol env).wp i req Q (f row) l' w) :
    (accountProtocol env).wp i req Q
      ((App.insert τ draft).bind fun row => App.commit.bind fun _ =>
        (App.refresh τ (key row)).bind f) l u := by
  simp only [App.insert, Program.bind_def, Program.bind_assoc]
  refine wp_issue (o := .insert τ draft) (Session.founded_nil hp) fun v₁ r w₁ l₁ h₁ => ?_
  have hrefs : ∀ k ∈ τ.references (draft.rowAt l v₁), (l.view v₁.shared).hasKey k := by
    intro k hk
    rw [Session.view_of_nil hp]
    exact h₁.later.1.allowed.lasts k (Table.not_link_references hk) (href _ _ k hk)
  obtain ⟨rfl, rfl⟩ := exec_insert_fresh h₁.later.2.1.sound.fresh h₁.later.2.2 hkeys hrefs h₁.result
  have hother : ∀ row : τ.Row, ¬ (Stmt.insert τ draft).Registers (some row) ∧
      Write.Founded w₁ (.insert τ row) ∧ ∀ t : Tables, ((Write.insert τ row).apply t).users =
      t.users := by
    intro row
    cases τ
    case users => exact absurd rfl husers
    all_goals exact ⟨False.elim, trivial, fun _ => rfl⟩
  obtain ⟨hspares, hfounded, husers'⟩ := hother (draft.rowAt l v₁)
  simp only [Program.pure_def, Program.ret_bind]
  refine wp_issue (o := .commit) (fun p hmem => ?_) fun v₂ r w₂ l₂ h₂ => ?_
  · simp only [Session.reload_pending, Session.push_pending, Session.touch_pending, hp,
      List.nil_append, List.mem_singleton] at hmem
    exact hmem ▸ hfounded
  obtain ⟨hshared, rfl⟩ := exec_commit h₂.result
  have hstate : w₂.shared.state = (Write.insert τ (draft.rowAt l v₁)).apply v₂.shared.state := by
    rw [hshared]
    simp only [Session.reload_pending, Session.push_pending, Session.touch_pending, hp,
      List.nil_append]
    rfl
  have hmem : draft.rowAt l v₁ ∈ w₂.shared.state.rows τ := by
    rw [hstate]
    show _ ∈ (v₂.shared.state.insert τ _).rows τ
    rw [Tables.rows_insert_self]
    exact List.mem_append_right _ (List.mem_singleton_self _)
  have honward := (h₁.spares rfl hspares).trans (h₂.onward ⟨id, by rw [hstate, husers']⟩)
  refine wp_reload rfl hτ ?_ fun w₃ l₃ row hinv h₃ hp₃ _ _ => ?_
  · exact Tables.hasKey_iff.mpr ⟨τ, _, hmem, by rw [hkey, hkeys]; exact List.mem_singleton_self _⟩
  · exact h w₃ l₃ row hinv (honward.trans h₃) hp₃ ⟨_, h₃.mem h₂.mem_own, _, _, hmem⟩

theorem wp_recorded {a : AuditRecord} {f : AuditLog → App α} (hp : l.pending = [])
    (hactor : ∀ actor, a.actorUserId = some actor → u.shared.state.hasKey (.primary .users actor))
    (horg : a.organizationId = none)
    (h : ∀ w l' row, AccountInv w → Onward Lib.Entry.SparesUsers i u w → l'.pending = [] →
      (accountProtocol env).wp i req Q (f row) l' w) :
    (accountProtocol env).wp i req Q ((AuditLogRepository.record a).bind f) l u := by
  simp only [AuditLogRepository.record, Program.bind_def, Program.bind_assoc]
  refine wp_add (by simp [Table.Link]) (by simp) hp (fun _ _ => rfl) (fun _ _ => rfl)
    (fun n now k hk => ?_) fun w l' row hinv honward hp' _ => h w l' row hinv honward hp'
  simp only [Table.references, AuditLogRepository.draft, horg, Option.toList_none, List.map_nil,
    List.append_nil, List.mem_map, Option.mem_toList] at hk
  obtain ⟨actor, hactor', rfl⟩ := hk
  exact hactor actor hactor'

/-- A statement that reads nothing from the database. -/
theorem wp_drawn {f : o.Res → App α} (hp : l.pending = []) (ho : o.ends = false)
    (hr : ∀ r, ¬ o.Registers r) (hl : ∀ n g r g' l', exec env n i o g l = some (r, g', l') → l' = l)
    (h : ∀ w r, AccountInv w → Onward Lib.Entry.SparesUsers i u w →
      (∃ e ∈ w.own i, e.op = o ∧ ∃ g g', exec env e.step i o g l = some (r, g', l)) →
      (accountProtocol env).wp i req Q (f r) l w) :
    (accountProtocol env).wp i req Q ((App.issue o).bind f) l u := by
  refine wp_issue (Session.founded_nil hp) fun v r w l' hissued => ?_
  obtain rfl := hl _ _ _ _ _ hissued.result
  exact h w r hissued.inv (hissued.spares ho (hr r))
    ⟨_, hissued.mem_own, rfl, _, _, hissued.result⟩

/-- The statement writes none of the columns that `AccountInv` is about. -/
def Stmt.Modest : Stmt → Prop
  | .insert .users _ | .updateIsActive _ _ => False
  | _ => True

theorem Stmt.Modest.writes {o : Stmt} (ho : o.Modest) {p : Write} (hp : o.Writes p) :
    p.Founded w := by
  cases o with
  | insert τ draft =>
      obtain ⟨n, now, rfl⟩ := hp
      cases τ
      case users => exact ho.elim
      all_goals trivial
  | updateIsActive _ _ => exact ho.elim
  | updateLastLoginAt _ _ | revokeIfActive _ _ | updateRevokedAt _ _ | updateReplacedBy _ _ =>
      exact hp ▸ trivial
  | deleteRolePermission _ _ | deleteUserRole _ | deleteMembership _ =>
      obtain ⟨row, rfl⟩ := hp
      trivial
  | _ => exact hp.elim

/-- A program of modest statements may do what it likes. -/
theorem wp_modest {p : App α} (hp : p.All Stmt.Modest) (hl : l.Founded u) :
    (accountProtocol env).wp i req (fun _ l w => l.Founded w) p l u := by
  refine (accountProtocol env).wp_of_all (J := fun (l : Session) w => l.Founded w) hp
    (fun hl hr => ?_) ?_ hl
  · obtain ⟨new, htrace, -⟩ := hr.trace
    exact hl.mono (htrace ▸ List.subset_append_left _ _)
  · intro o ho r l l' w w' hfounded hinv hloc hexec
    exact ⟨hinv.exec hloc hfounded hexec, exec_lasts hloc hexec, hfounded.exec hexec
      fun p => ho.writes⟩

end Rules

end SecureIam
