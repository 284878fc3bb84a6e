import SecureIam.Audit.Removals
import SecureIam.Tokens.Rules

/-!
What a call leaves in the trace of the removals that it makes and records: one tally for
each statement that matters, in their order.
-/
namespace SecureIam
open Lib
variable {env : Environment} {i : Nat} {req : Request} {o : Stmt} {r : o.Res} {l l' : Session}
  {u v w : History env Request} {k : Removable}

inductive Tally where
  | aimed (id : Uuid)
  | made (k : Removable)
  | told (k : Removable)
deriving DecidableEq, Repr

/-- Their events cannot be told apart. -/
def Removable.alike : Removable → Removable → Bool
  | token _, token _ => true
  | k, k' => k = k'

def Tally.tells (k : Removable) : Tally → Bool
  | told k' => k.alike k'
  | _ => false

/-- The tally of a statement, if it has one. -/
structure Lib.Entry.Shows (e : Entry (machine env) Request) (m : Option Tally) : Prop where
  removes : ∀ k, e.removes k = decide (m = some (.made k))
  logged : ∀ k : Removable, e.logged.any k.named = m.any (Tally.tells k)
  logsOut : ∀ id, e.logsOut id = decide (m = some (.aimed id))

inductive Tallied : List (Entry (machine env) Request) → List Tally → Prop
  | nil : Tallied [] []
  | snoc {es : List (Entry (machine env) Request)} {ms : List Tally}
      {e : Entry (machine env) Request} {m : Option Tally} (h : Tallied es ms) (he : e.Shows m) :
      Tallied (es ++ [e]) (ms ++ m.toList)

section Tallied
variable {es : List (Entry (machine env) Request)} {ms : List Tally}

theorem Tallied.removals (h : Tallied es ms) (k : Removable) :
    es.countP (·.removes k) = ms.countP (· = .made k) := by
  induction h with
  | nil => rfl
  | @snoc es ms e m h he ih =>
      rw [List.countP_append, List.countP_append, ih, List.countP_singleton, he.removes]
      cases m <;> simp

theorem Tallied.logged (h : Tallied es ms) (k : Removable) :
    (es.any fun e => e.logged.any k.named) = ms.any (Tally.tells k) := by
  induction h with
  | nil => rfl
  | @snoc es ms e m h he ih =>
      rw [List.any_append, List.any_append, ih, List.any_cons, he.logged]
      cases m <;> simp

theorem Tallied.logsOut (h : Tallied es ms) (id : Uuid) :
    es.any (·.logsOut id) = ms.any (· = .aimed id) := by
  induction h with
  | nil => rfl
  | @snoc es ms e m h he ih =>
      rw [List.any_append, List.any_append, ih, List.any_cons, he.logsOut]
      cases m <;> simp

end Tallied

/-- How a call may end: it has removed nothing, or it has removed one thing and told of it once. -/
inductive Balanced (req : Request) : Except Error Response → List Tally → Prop
  | nothing {out : Except Error Response}
      (hout : ∀ k : Removable, k.asked req → out ≠ .ok (.changed true)) : Balanced req out []
  | answered {k : Removable} (hasked : k.asked req) :
      Balanced req (.ok (.changed true)) [.made k, .told k]
  | loggedOut {x : PyStr} {id : Uuid} (hreq : req = .logout x) :
      Balanced req (.ok .done) [.aimed id, .made (.token id), .told (.token id)]

/-- A call whose removals are undisputed is balanced in the end. -/
def TallyPost (req : Request) (i : Nat) : Protocol.Post (machine env) Request Error Response :=
    fun out _ w =>
  (∀ e ∈ w.own i, e.Undisputed) → ∃ ms, Tallied (w.own i) ms ∧ Balanced req out ms

theorem Removable.asked_unique {k k' : Removable} (h : k.asked req) (h' : k'.asked req) :
    k = k' := by
  cases k <;> cases k' <;> cases req <;> simp_all [asked]

section Rules
variable {α : Type} {Q : Protocol.Post (machine env) Request Error α}

/-- Thread `i`, left in `u` by its last statement, got `o` through in `v` and is in `w`. -/
structure Passing (i : Nat) (req : Request) (o : Stmt) (r : o.Res) (l l' : Session)
    (u v w : History env Request) : Prop where
  later : (soundProtocol env).Later i l u v
  exec : v.exec i req o l = some (r, w, l')
  sound : Sound w

namespace Passing
variable (h : Passing i req o r l l' u v w)
include h

theorem own : w.own i = u.own i ++ [entry i req o r v w] := by
  rw [World.own_exec_self h.exec, h.later.1.own]

theorem result : SecureIam.exec env v.trace.length i o v.shared l = some (r, w.shared, l') := by
  obtain ⟨g, hg, hw, -⟩ := World.exec_step h.exec
  exact hw ▸ hg

theorem lasts : u.shared.state.Lasts w.shared.state :=
  fun k hk hkey => exec_lasts h.later.2.2 h.exec k hk (h.later.1.allowed.lasts k hk hkey)

theorem state (ho : o.ends = false) : w.shared.state = v.shared.state :=
  ((exec_effect h.result).grows ho).1

theorem tallied {ms : List Tally} {m : Option Tally} (hu : Tallied (u.own i) ms)
    (hm : (entry i req o r v w).Shows m) : Tallied (w.own i) (ms ++ m.toList) :=
  h.own ▸ hu.snoc hm

end Passing

theorem Lib.Entry.removes_same {e : Entry (machine env) Request}
    (h : e.after.state = e.before.state) (k : Removable) :
    e.removes k = false := by
  simp only [removes, h, Bool.and_not_self, Bool.false_and]

theorem Lib.Entry.logged_same {e : Entry (machine env) Request}
    (h : e.after.state = e.before.state) :
    e.logged = [] := by
  rw [logged, h]
  exact List.drop_length

/-- A statement that publishes nothing, and is no UPDATE of a logout. -/
theorem shows_none {e : Entry (machine env) Request} (h : e.after.state = e.before.state)
    (hout : ∀ id, e.logsOut id = false) : e.Shows none :=
  ⟨fun k => Entry.removes_same h k, fun k => by rw [Entry.logged_same h]; rfl, fun id => hout id⟩

/-- Any other statement that publishes nothing. -/
theorem Passing.idle {ms : List Tally} (h : Passing i req o r l l' u v w)
    (hstate : w.shared.state = v.shared.state) (hop : ∀ id now, o ≠ .updateRevokedAt id now)
    (hu : Tallied (u.own i) ms) : Tallied (w.own i) ms := by
  have hshows : (entry i req o r v w).Shows none := by
    refine shows_none hstate fun id => ?_
    cases o
    case updateRevokedAt id now => exact absurd rfl (hop id now)
    all_goals simp [Entry.logsOut]
  have htally := h.tallied hu hshows
  rwa [Option.toList_none, List.append_nil] at htally

theorem Passing.quiet {ms : List Tally} (h : Passing i req o r l l' u v w) (ho : o.ends = false)
    (hop : ∀ id now, o ≠ .updateRevokedAt id now) (hu : Tallied (u.own i) ms) :
    Tallied (w.own i) ms :=
  h.idle (h.state ho) hop hu

/-- The rule of every statement. -/
theorem wp_passing {f : o.Res → App α}
    (h : ∀ v r w l', Passing i req o r l l' u v w → (soundProtocol env).wp i req Q (f r) l' w) :
    (soundProtocol env).wp i req Q ((App.issue o).bind f) l u := by
  intro v hv r w l' hexec
  have hsound := exec_sound hv.2.1 hv.2.2 hexec
  exact ⟨hsound, trivial, h v r w l' ⟨hv, hexec, hsound⟩⟩

/-- Once the call has been disputed, its post says nothing. -/
theorem wp_disputed {p : App Response} {e : Entry (machine env) Request} (he : e ∈ u.own i)
    (hnot : ¬ e.Undisputed) :
    (soundProtocol env).wp i req (TallyPost req i) p l u := by
  have hwp : (soundProtocol env).wp i req (fun _ _ w => e ∈ w.own i) p l u := by
    refine (soundProtocol env).wp_of_all (Program.all_trivial _) (fun he hr => hr.own ▸ he) ?_ he
    intro o _ r l l' w w' he hinv hloc hexec
    refine ⟨exec_sound hinv hloc hexec, trivial, ?_⟩
    rw [World.own_exec_self hexec]
    exact List.mem_append_left _ he
  exact hwp.mono fun _ _ _ _ _ he hall => absurd (hall e he) hnot

/-- A call ends. -/
theorem wp_balanced (out : Except Error Response) {ms : List Tally} (htally : Tallied (u.own i) ms)
    (hbalanced : Balanced req out ms) :
    (soundProtocol env).wp i req (TallyPost req i) (.ofExcept out) l u := by
  have hend : ∀ w, (soundProtocol env).Later i l u w → TallyPost req i out l w :=
    fun w hw _ => ⟨ms, hw.1.own ▸ htally, hbalanced⟩
  cases out <;> exact hend

/-- A query. -/
theorem wp_query {τ : Table} {q : Tables → List τ.Row} {f : List τ.Row → App α} {ms : List Tally}
    (hp : l.pending = []) (hobject : l.object τ = fun r => r) (htally : Tallied (u.own i) ms)
    (h : ∀ v w l', Passing i req (.select τ q) (q v.shared.state) l l' u v w →
      w.shared.state = v.shared.state →
      l'.pending = [] → Tallied (w.own i) ms → (soundProtocol env).wp i req Q (f (q v.shared.state))
        l' w) :
    (soundProtocol env).wp i req Q ((App.select τ q).bind f) l u := by
  refine wp_passing (o := .select τ q) fun v r w l' hpassing => ?_
  obtain ⟨rfl, -, rfl⟩ := exec_select hpassing.result
  rw [hobject, List.map_id', Session.view_of_nil hp] at hpassing ⊢
  have hstate := hpassing.state rfl
  exact h v w _ hpassing hstate (by simp [hp]) (hpassing.quiet rfl (fun _ _ => by simp) htally)

/-- What the thread holds a lock on is as it left it. -/
theorem Lib.Protocol.Later.locked (h : (soundProtocol env).Later i l u v) {p : Write}
    (hp : p ∈ l.pending) (key : LockKey) (hkey : key ∈ p.keys) (hpart : key.part = fun r => r)
    {x : key.table.Row} (hx : x ∈ u.shared.state.rows key.table) (hrow : key ∈ key.table.keys x) :
    x ∈ v.shared.state.rows key.table := by
  have hlock := h.2.2.holds.locked p hp key hkey
  have hsame := h.1.allowed.undisturbed.same key ((h.1.allowed.undisturbed.locks key).mp hlock)
  have hmem : x ∈ ((u.shared.state.rows key.table).filter (key ∈ key.table.keys ·)).map
      key.part := by
    rw [hpart, List.map_id']
    exact List.mem_filter.mpr ⟨hx, decide_eq_true hrow⟩
  rw [show ((u.shared.state.rows key.table).filter (key ∈ key.table.keys ·)).map key.part =
    ((v.shared.state.rows key.table).filter (key ∈ key.table.keys ·)).map key.part from hsame,
    hpart, List.map_id'] at hmem
  exact (List.mem_filter.mp hmem).1

theorem Lib.Protocol.Later.takes (h : (soundProtocol env).Later i l u v) {p : Write}
    (hp : p ∈ l.pending) (htakes : p.Takes u.shared.state k) : p.Takes v.shared.state k := by
  cases htakes with
  | @assignment ur hur =>
      exact .assignment (h.locked hp (.primary .userRoles ur.id) List.mem_cons_self rfl hur
        List.mem_cons_self)
  | @grant rp hrp =>
      exact .grant (h.locked hp (.rolePermission rp.roleId rp.permissionId) List.mem_cons_self
        rfl hrp List.mem_cons_self)
  | @membership m hm =>
      exact .membership (h.locked hp (.primary .memberships m.id) List.mem_cons_self rfl hm
        List.mem_cons_self)
  | @token x now hx hlive =>
      exact .token (h.locked hp (.primary .refreshTokens x.id) List.mem_cons_self rfl hx
        List.mem_cons_self) hlive

/-- The commit of a removal. -/
theorem wp_made {f : Unit → App α} {p : Write} {ms : List Tally} (hp : l.pending = [p])
    (htakes : p.Takes u.shared.state k) (hlogout : ∀ id, k = .token id → req.isLogout)
    (htally : Tallied (u.own i) ms)
    (h : ∀ w l', u.shared.state.Lasts w.shared.state → l'.pending = [] →
      Tallied (w.own i) (ms ++ [.made k]) → (soundProtocol env).wp i req Q (f ()) l' w) :
    (soundProtocol env).wp i req Q (App.commit.bind f) l u := by
  refine wp_passing (o := .commit) fun v r w l' hpassing => ?_
  obtain ⟨hshared, rfl⟩ := exec_commit hpassing.result
  have hstate : w.shared.state = p.apply v.shared.state := by
    rw [hshared, hp]
    rfl
  have htakes' := hpassing.later.takes (hp ▸ List.mem_singleton_self p) htakes
  have hshows : (entry i req .commit r v w).Shows (some (.made k)) := by
    refine ⟨fun k' => ?_, fun k' => ?_, fun id => ?_⟩
    · have hstands := htakes'.stands hpassing.later.2.1.schema k'
      simp only [Entry.removes, hstate, hstands, Option.some.injEq, Tally.made.injEq]
      by_cases hk : k = k'
      · subst hk
        cases k with
        | token id => simpa using hlogout id rfl
        | _ => simp
      · simp [hk, Ne.symm hk]
    · have hlogs : (entry i req .commit r v w).logged = [] := by
        simp only [Entry.logged, hstate, htakes'.logs, List.drop_length]
      simp [hlogs, Tally.tells]
    · simp [Entry.logsOut]
  exact h w _ hpassing.lasts rfl (hpassing.tallied htally hshows)

theorem shows_told {e : Entry (machine env) Request} {row : AuditLog}
    (h : e.after.state = e.before.state.insert .auditLogs row) (hop : e.op = .commit)
    (hnamed : ∀ k' : Removable, k'.named row = k'.alike k) : e.Shows (some (.told k)) := by
  refine ⟨fun k' => ?_, fun k' => ?_, fun id => ?_⟩
  · have hstands : k'.stands e.after.state = k'.stands e.before.state := by
      rw [h]
      cases k' <;> rfl
    simp only [Entry.removes, hstands, Bool.and_not_self, Bool.false_and]
    rfl
  · have hlogged : e.logged = [row] := by
      rw [Entry.logged, h]
      exact List.drop_left
    simp [hlogged, hnamed, Tally.tells]
  · simp only [Entry.logsOut, hop, Bool.and_false]
    rfl

/-- The recording of a removal, by a user and of an organization that exist. -/
theorem wp_told {a : AuditRecord} {f : AuditLog → App α} {ms : List Tally} (hp : l.pending = [])
    (hactor : ∀ actor, a.actorUserId = some actor → u.shared.state.hasKey (.primary .users actor))
    (horg : ∀ org, a.organizationId = some org →
      u.shared.state.hasKey (.primary .organizations org))
    (hnamed : ∀ n now (k' : Removable), k'.named ((AuditLogRepository.draft a).row n now) =
      k'.alike k) (htally : Tallied (u.own i) ms)
    (h : ∀ w l' row, Tallied (w.own i) (ms ++ [.told k]) → (soundProtocol env).wp i req Q (f row)
      l' w) :
    (soundProtocol env).wp i req Q ((AuditLogRepository.record a).bind f) l u := by
  simp only [AuditLogRepository.record, App.insert, App.refresh, Program.bind_def,
    Program.bind_assoc]
  refine wp_passing (o := .insert .auditLogs (AuditLogRepository.draft a)) fun v₁ r₁ w₁ l₁ h₁ => ?_
  have hrefs₁ : ∀ key ∈ Table.auditLogs.references ((AuditLogRepository.draft a).row
      (env.uuid v₁.trace.length) (l.now env v₁.trace.length)), (l.view v₁.shared).hasKey key := by
    intro key hkey
    rw [Session.view_of_nil hp]
    refine h₁.later.1.allowed.lasts key (Table.not_link_references hkey) ?_
    cases List.mem_append.mp hkey with
    | inl hkey =>
        obtain ⟨actor, hmem, rfl⟩ := List.mem_map.mp hkey
        exact hactor actor (Option.mem_toList.mp hmem)
    | inr hkey =>
        obtain ⟨org, hmem, rfl⟩ := List.mem_map.mp hkey
        exact horg org (Option.mem_toList.mp hmem)
  obtain ⟨rfl, rfl⟩ := exec_insert_fresh h₁.later.2.1.fresh h₁.later.2.2 (fun _ _ => rfl)
    hrefs₁ h₁.result
  have htally₁ := h₁.quiet rfl (fun _ _ => by simp) htally
  simp only [Program.pure_def, Program.ret_bind]
  refine wp_passing (o := .commit) fun v₂ r₂ w₂ l₂ h₂ => ?_
  obtain ⟨hshared, rfl⟩ := exec_commit h₂.result
  have hstate : w₂.shared.state = v₂.shared.state.insert .auditLogs
      ((AuditLogRepository.draft a).row (env.uuid v₁.trace.length)
        (l.now env v₁.trace.length)) := by
    rw [hshared]
    simp only [Session.reload_pending, Session.push_pending, Session.touch_pending, hp,
      List.nil_append]
    rfl
  have htally₂ := h₂.tallied htally₁ (m := some (.told k)) (shows_told hstate rfl (hnamed _ _))
  have hkey : w₂.shared.state.hasKey (.primary .auditLogs (env.uuid v₁.trace.length)) := by
    rw [hstate]
    exact Tables.hasKey_iff.mpr ⟨.auditLogs, _, List.mem_append_right _ (List.mem_singleton_self _),
      List.mem_cons_self⟩
  refine wp_passing (o := .refresh .auditLogs _) fun v₃ r₃ w₃ l₃ h₃ => ?_
  have hkey₃ := h₃.later.1.allowed.lasts _ (LockKey.not_link (by decide)) hkey
  obtain ⟨row, -, -, rfl, -⟩ := exec_refresh h₃.result (by rwa [Session.view_of_nil rfl])
  exact h w₃ l₃ row (h₃.quiet rfl (fun _ _ => by simp) htally₂)

theorem writeRow_found {c : Nat} {g g' : Database} {p : Write}
    (h : writeRow i (some p) g l = some (c, g', l')) :
    c = 1 ∧ l'.pending = l.pending ++ [p] := by
  cases writeRow_eq_some.mp h with
  | inl h => cases h.1
  | inr h =>
      obtain ⟨w, hw, rfl, -, rfl⟩ := h
      obtain rfl := Option.some.inj hw
      exact ⟨rfl, rfl⟩

section Deletions
variable {n c : Nat} {g g' : Database}

theorem exec_deleteUserRole {ur : UserRole} (ht : g.state.Schema) (hp : l.pending = [])
    (hur : ur ∈ g.state.userRoles)
    (h : SecureIam.exec env n i (.deleteUserRole ur.id) g l = some (c, g', l')) :
    l'.pending = [.deleteUserRole ur] := by
  have hfind : g.state.userRoles.find? (·.id = ur.id) = some ur :=
    find?_of_key (τ := .userRoles) (k := .primary .userRoles ur.id) ht hur
      (by simp +contextual [Table.keys]) (by simp)
  simp only [exec, Session.view_of_nil hp, hfind] at h
  rw [(writeRow_found h).2, Session.touch_pending, hp, List.nil_append]

theorem exec_deleteMembership {m : OrganizationMembership} (ht : g.state.Schema)
    (hp : l.pending = []) (hm : m ∈ g.state.memberships)
    (h : SecureIam.exec env n i (.deleteMembership m.id) g l = some (c, g', l')) :
    l'.pending = [.deleteMembership m] := by
  have hfind : g.state.memberships.find? (·.id = m.id) = some m :=
    find?_of_key (τ := .memberships) (k := .primary .memberships m.id) ht hm
      (by simp +contextual [Table.keys]) (by simp)
  simp only [exec, Session.view_of_nil hp, hfind] at h
  rw [(writeRow_found h).2, Session.touch_pending, hp, List.nil_append]

/-- A row count of zero says that there was nothing to delete. -/
theorem exec_deleteRolePermission {x y : Uuid} (hp : l.pending = [])
    (h : SecureIam.exec env n i (.deleteRolePermission x y) g l = some (c, g', l')) :
    (c = 0 ∧ l'.pending = []) ∨ (c = 1 ∧ (⟨x, y⟩ : RolePermission) ∈ g.state.rolePermissions ∧
      l'.pending = [.deleteRolePermission ⟨x, y⟩]) := by
  simp only [exec, Session.view_of_nil hp] at h
  cases hfind : g.state.rolePermissions.find? fun r => r.roleId = x ∧ r.permissionId = y with
  | none =>
      simp only [hfind, Option.map_none, writeRow, Option.some.injEq, Prod.mk.injEq] at h
      obtain ⟨rfl, -, rfl⟩ := h
      exact .inl ⟨rfl, hp⟩
  | some r =>
      simp only [hfind, Option.map_some] at h
      obtain ⟨rfl, hpending⟩ := writeRow_found h
      have hr : r.roleId = x ∧ r.permissionId = y := by simpa using List.find?_some hfind
      obtain ⟨rfl, rfl⟩ := hr
      refine .inr ⟨rfl, List.mem_of_find?_eq_some hfind, ?_⟩
      rw [hpending, Session.touch_pending, hp, List.nil_append]

end Deletions

end Rules

section Calls
open AuthorizationService OrganizationService

theorem named_roleRevoked {x y actor : Uuid} {o : Option Uuid} {n : Uuid} {now : Time}
    (k : Removable) :
    k.named ((AuditLogRepository.draft (roleEvent .roleRevoked x y o actor)).row n now) =
      k.alike (.assignment x y o) := by
  rw [Bool.eq_iff_iff]
  cases k <;> simp [Removable.named, Removable.alike, AuditLogRepository.draft, roleEvent]
  rw [eq_comm, eq_comm (a := o), eq_comm (a := y), and_comm (a := _ = o)]

theorem named_permissionRemoved {x y actor : Uuid} {o : Option Uuid} {n : Uuid} {now : Time}
    (k : Removable) :
    k.named ((AuditLogRepository.draft (permissionEvent .permissionRemovedFromRole x y o actor)).row
      n now) =
      k.alike (.grant x y) := by
  rw [Bool.eq_iff_iff]
  cases k <;> simp [Removable.named, Removable.alike, AuditLogRepository.draft, permissionEvent]
  rw [eq_comm, eq_comm (a := y)]

theorem named_memberRemoved {x o actor : Uuid} {n : Uuid} {now : Time} (k : Removable) :
    k.named ((AuditLogRepository.draft (memberEvent .organizationMemberRemoved x o actor)).row
      n now) =
      k.alike (.membership x o) := by
  rw [Bool.eq_iff_iff]
  cases k <;> simp [Removable.named, Removable.alike, AuditLogRepository.draft, memberEvent]
  rw [eq_comm, eq_comm (a := o)]

/-- The end of a deletion: it is committed, recorded and answered. -/
theorem wp_deleted {a : AuditRecord} {p : Write} {f : AuditLog → App Response}
    (hp : l.pending = [p]) (htakes : p.Takes u.shared.state k)
    (hactor : ∀ actor, a.actorUserId = some actor → u.shared.state.hasKey (.primary .users actor))
    (horg : ∀ org, a.organizationId = some org →
      u.shared.state.hasKey (.primary .organizations org))
    (hnamed : ∀ n now (k' : Removable), k'.named ((AuditLogRepository.draft a).row n now) =
      k'.alike k) (hasked : k.asked req) (htally : Tallied (u.own i) [])
    (hf : ∀ row, f row = .ret (.changed true)) :
    (soundProtocol env).wp i req (TallyPost req i)
      (App.commit.bind fun _ => (AuditLogRepository.record a).bind f) l u := by
  have hlogout : ∀ id, k = .token id → req.isLogout := by
    intro id hk
    subst hk
    cases hasked
  refine wp_made hp htakes hlogout htally fun w₁ l₁ hlasts₁ hp₁ htally₁ => ?_
  have hactor₁ := fun actor heq => hlasts₁ _ (LockKey.not_link (by decide)) (hactor actor heq)
  have horg₁ := fun org heq => hlasts₁ _ (LockKey.not_link (by decide)) (horg org heq)
  refine wp_told hp₁ hactor₁ horg₁ hnamed htally₁ fun w₂ l₂ row htally₂ => ?_
  rw [hf]
  exact wp_balanced (.ok (.changed true)) htally₂ (.answered hasked)

theorem revokeRole_tallies {x y actor : Uuid} {o : Option Uuid} (htally : Tallied (u.own i) []) :
    (soundProtocol env).wp i (.revokeRole x y o actor) (TallyPost (.revokeRole x y o actor) i)
      (call env (.revokeRole x y o actor)) {} u := by
  have hasked : (Removable.assignment x y o).asked (.revokeRole x y o actor) := by
    simp [Removable.asked]
  simp only [call, revokeRole, UserRoleRepository.revoke, Program.map_def, Program.bind_def,
    Program.bind_assoc]
  refine wp_query rfl rfl htally fun v₁ w₁ l₁ h₁ hstate₁ hp₁ htally₁ => ?_
  have hlookup := h₁.later.2.1.schema.filter_key (τ := .userRoles) (k := .assignment x y o)
    (p := fun ur : UserRole => ur.userId = x ∧ ur.roleId = y ∧ ur.organizationId = o)
    fun ur hur => by
      simp only [decide_eq_true_eq] at hur
      simp [Table.keys, hur]
  cases hlookup with
  | inl hnone =>
      rw [show (v₁.shared.state.userRoles.filter fun ur => ur.userId = x ∧ ur.roleId = y ∧
        ur.organizationId = o) = [] from hnone]
      exact wp_balanced (.ok (.changed false)) htally₁ (.nothing fun _ _ => by simp)
  | inr hsome =>
      obtain ⟨ur, hur, hmatches, hrows⟩ := hsome
      rw [show (v₁.shared.state.userRoles.filter fun ur => ur.userId = x ∧ ur.roleId = y ∧
        ur.organizationId = o) = [ur] from hrows]
      simp only [App.scalarOneOrNone, Program.pure_def, Program.ret_bind, Program.bind_assoc]
      refine wp_passing (o := .deleteUserRole ur.id) fun v₂ c w₂ l₂ h₂ => ?_
      have hmem₂ : entry i _ _ c v₂ w₂ ∈ w₂.own i := h₂.own ▸ List.mem_append_right _
        (List.mem_singleton_self _)
      by_cases hundisputed : (entry i (.revokeRole x y o actor) (.deleteUserRole ur.id)
        c v₂ w₂).Undisputed
      · obtain ⟨hfinds, hactor⟩ := hundisputed
        obtain ⟨ur', hur', hagain⟩ := List.any_eq_true.mp hfinds
        obtain ⟨hid, rfl, rfl, rfl⟩ := of_decide_eq_true hagain
        have hdeletes : v₂.shared.state.userRoles.any (·.id = ur.id) :=
          List.any_eq_true.mpr ⟨ur', hur', decide_eq_true hid⟩
        have hschema := h₂.later.2.1.schema
        have hpending := exec_deleteUserRole hschema hp₁ hur' (hid ▸ h₂.result)
        have hstate₂ := h₂.state rfl
        have htakes : (Write.deleteUserRole ur').Takes w₂.shared.state
          (.assignment ur'.userId ur'.roleId ur'.organizationId) :=
          .assignment (hstate₂ ▸ hur')
        simp only [if_true, Program.bind_assoc, Program.ret_bind]
        refine wp_deleted hpending htakes (fun actor' heq => ?_) (fun org heq => ?_)
          (fun _ _ => named_roleRevoked) hasked (h₂.quiet rfl (fun _ _ => by simp) htally₁)
          fun _ => rfl
        · exact hstate₂ ▸ Option.some.inj heq ▸ hactor hdeletes actor rfl
        · rw [hstate₂]
          refine hschema.references .userRoles ur' hur' _ ?_
          simp [Table.references, show ur'.organizationId = some org from heq]
      · exact wp_disputed hmem₂ hundisputed

theorem removeMember_tallies {x o actor : Uuid} (htally : Tallied (u.own i) []) :
    (soundProtocol env).wp i (.removeMember x o actor) (TallyPost (.removeMember x o actor) i)
      (call env (.removeMember x o actor)) {} u := by
  have hasked : (Removable.membership x o).asked (.removeMember x o actor) := by
    simp [Removable.asked]
  simp only [call, removeMember, OrganizationMembershipRepository.removeMember, Program.map_def,
    Program.bind_def, Program.bind_assoc]
  refine wp_query rfl rfl htally fun v₁ w₁ l₁ h₁ hstate₁ hp₁ htally₁ => ?_
  have hlookup := h₁.later.2.1.schema.filter_key (τ := .memberships) (k := .membershipOf x o)
    (p := fun m : OrganizationMembership => m.userId = x ∧ m.organizationId = o) fun m hm => by
      simp only [decide_eq_true_eq] at hm
      simp [Table.keys, hm]
  cases hlookup with
  | inl hnone =>
      rw [show OrganizationMembershipRepository.membershipsOf x o v₁.shared.state = [] from hnone]
      exact wp_balanced (.ok (.changed false)) htally₁ (.nothing fun _ _ => by simp)
  | inr hsome =>
      obtain ⟨m, hm, hmatches, hrows⟩ := hsome
      rw [show OrganizationMembershipRepository.membershipsOf x o v₁.shared.state = [m] from hrows]
      simp only [App.scalarOneOrNone, Program.pure_def, Program.ret_bind, Program.bind_assoc]
      refine wp_passing (o := .deleteMembership m.id) fun v₂ c w₂ l₂ h₂ => ?_
      have hmem₂ : entry i _ _ c v₂ w₂ ∈ w₂.own i := h₂.own ▸ List.mem_append_right _
        (List.mem_singleton_self _)
      by_cases hundisputed : (entry i (.removeMember x o actor) (.deleteMembership m.id)
        c v₂ w₂).Undisputed
      · obtain ⟨hfinds, hactor⟩ := hundisputed
        obtain ⟨m', hm', hagain⟩ := List.any_eq_true.mp hfinds
        obtain ⟨hid, rfl, rfl⟩ := of_decide_eq_true hagain
        have hdeletes : v₂.shared.state.memberships.any (·.id = m.id) :=
          List.any_eq_true.mpr ⟨m', hm', decide_eq_true hid⟩
        have hschema := h₂.later.2.1.schema
        have hpending := exec_deleteMembership hschema hp₁ hm' (hid ▸ h₂.result)
        have hstate₂ := h₂.state rfl
        have htakes : (Write.deleteMembership m').Takes w₂.shared.state
          (.membership m'.userId m'.organizationId) :=
          .membership (hstate₂ ▸ hm')
        simp only [if_true, Program.bind_assoc, Program.ret_bind]
        refine wp_deleted hpending htakes (fun actor' heq => ?_) (fun org heq => ?_)
          (fun _ _ => named_memberRemoved) hasked (h₂.quiet rfl (fun _ _ => by simp) htally₁)
          fun _ => rfl
        · exact hstate₂ ▸ Option.some.inj heq ▸ hactor hdeletes actor rfl
        · rw [hstate₂]
          refine hschema.references .memberships m' hm' _ ?_
          simp [Table.references, show m'.organizationId = org from Option.some.inj heq]
      · exact wp_disputed hmem₂ hundisputed

theorem removePermissionFromRole_tallies {x y actor : Uuid} (htally : Tallied (u.own i) []) :
    (soundProtocol env).wp i (.removePermissionFromRole x y actor)
      (TallyPost (.removePermissionFromRole x y actor) i)
      (call env (.removePermissionFromRole x y actor)) {} u := by
  have hasked : (Removable.grant x y).asked (.removePermissionFromRole x y actor) := by
    simp [Removable.asked]
  simp only [call, removePermissionFromRole, RoleRepository.getById,
    RoleRepository.removePermission, Program.map_def, Program.bind_def, Program.bind_assoc]
  refine wp_query rfl rfl htally fun v₁ w₁ l₁ h₁ hstate₁ hp₁ htally₁ => ?_
  have hlookup := h₁.later.2.1.schema.filter_key (τ := .roles) (k := .primary .roles x)
    (p := fun role : Role => role.id = x) fun role hrole => by
      simp only [decide_eq_true_eq] at hrole
      simp [Table.keys, hrole]
  cases hlookup with
  | inl hnone =>
      rw [show (v₁.shared.state.roles.filter fun role => role.id = x) = [] from hnone]
      exact wp_balanced (.error (roleNotFound x)) htally₁ (.nothing fun _ _ => by simp)
  | inr hsome =>
      obtain ⟨role, hrole, -, hrows⟩ := hsome
      rw [show (v₁.shared.state.roles.filter fun role => role.id = x) = [role] from hrows]
      simp only [App.scalarOneOrNone, Program.pure_def, Program.ret_bind, Program.bind_assoc]
      refine wp_passing (o := .deleteRolePermission x y) fun v₂ c w₂ l₂ h₂ => ?_
      have hmem₂ : entry i _ _ c v₂ w₂ ∈ w₂.own i := h₂.own ▸ List.mem_append_right _
        (List.mem_singleton_self _)
      have htally₂ := h₂.quiet rfl (fun _ _ => by simp) htally₁
      by_cases hundisputed : (entry i (.removePermissionFromRole x y actor)
        (.deleteRolePermission x y) c v₂ w₂).Undisputed
      · cases exec_deleteRolePermission hp₁ h₂.result with
        | inl hnone =>
            obtain ⟨rfl, hp₂⟩ := hnone
            refine wp_passing (o := .commit) fun v₃ r w₃ l₃ h₃ => ?_
            have hstate₃ : w₃.shared.state = v₃.shared.state := by
              rw [(exec_commit h₃.result).1, hp₂]
              rfl
            have htally₃ := h₃.idle hstate₃ (fun _ _ => by simp) htally₂
            exact wp_balanced (.ok (.changed false)) htally₃ (.nothing fun _ _ => by simp)
        | inr hsome =>
            obtain ⟨rfl, hrp, hpending⟩ := hsome
            have hstate₂ := h₂.state rfl
            have hdeletes : v₂.shared.state.hasKey (.rolePermission x y) :=
              Tables.hasKey_iff.mpr ⟨.rolePermissions, _, hrp, List.mem_cons_self⟩
            have htakes : (Write.deleteRolePermission ⟨x, y⟩).Takes w₂.shared.state (.grant x y) :=
              .grant (hstate₂ ▸ hrp)
            simp only [Nat.lt_one_iff, decide_true, if_true, Program.bind_assoc, Program.ret_bind]
            refine wp_deleted hpending htakes (fun actor' heq => ?_) (fun org heq => ?_)
              (fun _ _ => named_permissionRemoved) hasked htally₂ fun _ => rfl
            · exact hstate₂ ▸ Option.some.inj heq ▸ hundisputed.2 hdeletes actor rfl
            · refine h₂.lasts _ (LockKey.not_link (by decide)) ?_
              rw [hstate₁]
              refine h₁.later.2.1.schema.references .roles role hrole _ ?_
              simp [Table.references, show role.organizationId = some org from heq]
      · exact wp_disputed hmem₂ hundisputed

theorem named_userLogout {T : RefreshToken} {id : Uuid} {n : Uuid} {now : Time} (k : Removable) :
    k.named ((AuditLogRepository.draft
      { action := .userLogout
        actorUserId := some T.userId
        targetType := some .user
        targetId := some T.userId }).row n now) = k.alike (.token id) := by
  cases k <;> simp [Removable.named, Removable.alike, AuditLogRepository.draft]

/-- The UPDATE of a logout that finds the token unrevoked. -/
theorem Passing.aimed {x : String} {id : Uuid} {now : Time} {c : Nat} {ms : List Tally}
    (h : Passing i (.logout x) (.updateRevokedAt id now) c l l' u v w) (hu : Tallied (u.own i) ms) :
    Tallied (w.own i) (ms ++ [.aimed id]) := by
  have hstate : w.shared.state = v.shared.state := h.state rfl
  refine h.tallied hu (m := some (.aimed id)) ⟨fun k => Entry.removes_same hstate k, fun k => ?_,
    fun id' => ?_⟩
  · rw [Entry.logged_same hstate]
    rfl
  · simp [Entry.logsOut, Request.isLogout]

theorem Passing.revokes {x : String} {id : Uuid} {now : Time} {c : Nat}
    (h : Passing i (.logout x) (.updateRevokedAt id now) c l l' u v w) (hp : l.pending = [])
    (hundisputed : (entry i (.logout x) (.updateRevokedAt id now) c v w).Undisputed) :
    c = 1 ∧ l'.pending = [.setRevokedAt id now] ∧
      (Write.setRevokedAt id now).Takes w.shared.state (.token id) := by
  obtain ⟨y, hy, hstands⟩ := List.any_eq_true.mp hundisputed.1
  obtain ⟨hid, hlive⟩ := of_decide_eq_true hstands
  obtain ⟨hc, -, hpending⟩ := exec_updateRevokedAt ⟨y, by rwa [Session.view_of_nil hp], hid⟩
    h.result
  rw [hp, List.nil_append] at hpending
  exact ⟨hc, hpending, hid ▸ .token (h.state rfl ▸ hy) hlive⟩

/-- What a logout does after its UPDATE: it publishes the removal, and records it. -/
theorem wp_loggedOut {x : String} {T : RefreshToken} {p : Write} (hp : l.pending = [p])
    (htakes : p.Takes u.shared.state (.token T.id)) (htally : Tallied (u.own i) [.aimed T.id])
    (hkey : u.shared.state.hasKey (.primary .refreshTokens T.id))
    (howner : u.shared.state.hasKey (.primary .users T.userId)) :
    (soundProtocol env).wp i (.logout x) (TallyPost (.logout x) i)
      (App.commit.bind fun _ => (App.refresh .refreshTokens T.id).bind fun _ =>
        (AuditLogRepository.record
          { action := .userLogout
            actorUserId := some T.userId
            targetType := some .user
            targetId := some T.userId }).bind fun _ => .ret .done) l u := by
  refine wp_made hp htakes (fun _ _ => rfl) htally fun w l' hlasts hp' htally' => ?_
  simp only [App.refresh, Program.bind_def, Program.bind_assoc]
  refine wp_passing (o := .refresh .refreshTokens T.id) fun v₁ r w₁ l₁ h₁ => ?_
  have hkey₁ := h₁.later.1.allowed.lasts _ (LockKey.not_link (by decide))
    (hlasts _ (LockKey.not_link (by decide)) hkey)
  have howner₁ := h₁.lasts _ (LockKey.not_link (by decide))
    (hlasts _ (LockKey.not_link (by decide)) howner)
  obtain ⟨row, -, -, rfl, -, rfl⟩ := exec_refresh h₁.result (by rwa [Session.view_of_nil hp'])
  refine wp_told (k := .token T.id) (by simp [hp']) (fun actor heq => Option.some.inj heq ▸ howner₁)
    (by simp) (fun _ _ => named_userLogout) (h₁.quiet rfl (fun _ _ => by simp) htally')
    fun w₂ l₂ _ htally₂ => ?_
  exact wp_balanced (.ok .done) htally₂ (.loggedOut rfl)

theorem logoutText_tallies {x : String} (htally : Tallied (u.own i) []) :
    (soundProtocol env).wp i (.logout x) (TallyPost (.logout x) i) (call env (.logout x)) {} u := by
  simp only [call, AuthService.logout, RefreshTokenRepository.getByHash, Program.map_def,
    Program.bind_def, Program.bind_assoc, hashRefreshToken_text, Program.ofExcept_ok]
  refine wp_query rfl (Session.object_refreshTokens fun _ => rfl) htally
    fun v₁ w₁ l₁ h₁ hstate₁ hp₁ htally₁ => ?_
  have hrows : ∀ T ∈ v₁.shared.state.refreshTokens.filter (·.tokenHash = env.sha256 x),
      T ∈ v₁.shared.state.refreshTokens := fun T hT => (List.mem_filter.mp hT).1
  cases hfound : v₁.shared.state.refreshTokens.filter (·.tokenHash = env.sha256 x) with
  | nil => exact wp_balanced (.ok .done) htally₁ (.nothing fun _ _ => by simp)
  | cons T rest =>
      cases rest with
      | cons T' rest =>
          exact wp_balanced (.error .multipleResultsFound) htally₁ (.nothing fun _ _ => by simp)
      | nil =>
          have hT := hrows T (hfound ▸ List.mem_singleton_self T)
          have hkey : v₁.shared.state.hasKey (.primary .refreshTokens T.id) :=
            Tables.hasKey_iff.mpr ⟨.refreshTokens, T, hT, List.mem_cons_self⟩
          have howner := h₁.later.2.1.schema.references .refreshTokens T hT _ List.mem_cons_self
          rw [← hstate₁] at hkey howner
          simp only [App.scalarOneOrNone, Program.pure_def, Program.ret_bind]
          split
          · exact wp_balanced (.ok .done) htally₁ (.nothing fun _ _ => by simp)
          · simp only [RefreshTokenRepository.revoke, App.utcNow, Program.bind_def,
              Program.bind_assoc]
            refine wp_passing (o := .utcNow) fun v₂ now w₂ l₂ h₂ => ?_
            obtain ⟨-, -, rfl⟩ := exec_utcNow h₂.result
            have htally₂ := h₂.quiet rfl (fun _ _ => by simp) htally₁
            refine wp_passing (o := .updateRevokedAt T.id now) fun v₃ c w₃ l₃ h₃ => ?_
            by_cases hundisputed : (entry i (.logout x) (.updateRevokedAt T.id now)
              c v₃ w₃).Undisputed
            · obtain ⟨rfl, hpending, htakes⟩ := h₃.revokes hp₁ hundisputed
              simp only [App.flushOne, if_true, Program.pure_def, Program.ret_bind]
              refine wp_loggedOut hpending htakes (h₃.aimed htally₂) ?_ ?_
              · exact h₃.lasts _ (LockKey.not_link (by decide))
                  (h₂.lasts _ (LockKey.not_link (by decide)) hkey)
              · exact h₃.lasts _ (LockKey.not_link (by decide))
                  (h₂.lasts _ (LockKey.not_link (by decide)) howner)
            · have hmem₃ : entry i _ _ c v₃ w₃ ∈ w₃.own i :=
                h₃.own ▸ List.mem_append_right _ (List.mem_singleton_self _)
              exact wp_disputed hmem₃ hundisputed

theorem logout_tallies {x : PyStr} (htally : Tallied (u.own i) []) :
    (soundProtocol env).wp i (.logout x) (TallyPost (.logout x) i) (call env (.logout x)) {} u := by
  cases x with
  | text x => exact logoutText_tallies htally
  | surrogate before c rest =>
      exact wp_balanced (.error .unicodeEncodeError) htally (.nothing fun _ _ => by simp)

end Calls

end SecureIam
