import SecureIam.Accounts.Continuity
import SecureIam.Lib.Watch
import SecureIam.Services.Statements
import SecureIam.Tokens.Answers

/-!
Why sessions end. A session that revokes a row has read the row of its own token first; so a
family dies of the logout of its last token or of a token that was presented again after its
rotation, however many refreshes race.
-/
namespace SecureIam
open Lib App Program AuthService
variable {env : Environment} {p p' : Calls env} {x : String} {α : Type}

/-- The row that a statement means to revoke. -/
def Stmt.revoked : Stmt → Option Uuid
  | revokeIfActive id _ | updateRevokedAt id _ => some id
  | _ => none

/-- The first of the statements is the lookup by the hash, and it finds the token. -/
def Finds (es : List (Entry (machine env) Request)) (hash : String) (T : RefreshToken) : Prop :=
  ∃ look, es.head? = some look ∧
    look.op = .select .refreshTokens (fun t => t.refreshTokens.filter (·.tokenHash = hash)) ∧
    T ∈ tokensOf look.before ∧ T.tokenHash = hash

theorem Finds.mono {es es' : List (Entry (machine env) Request)} {hash : String} {T : RefreshToken}
    (h : Finds es hash T) (hes : es <+: es') : Finds es' hash T := by
  obtain ⟨look, hlook, hrest⟩ := h
  obtain ⟨new, rfl⟩ := hes
  exact ⟨look, by rw [List.head?_append, hlook]; rfl, hrest⟩

/-- What a refresh or a logout has found by the time it revokes a row. -/
def HasRead (env : Environment) (es : List (Entry (machine env) Request)) (id : Uuid) :
    Request → Prop
  | .refresh (.text x) => ∃ T, Finds es (env.sha256 x) T ∧ (T.id = id ∨ T.replacedBy ≠ none)
  | .logout (.text x) => ∃ T, Finds es (env.sha256 x) T ∧ T.id = id ∧ T.revokedAt = none
  | _ => True

theorem HasRead.mono {es es' : List (Entry (machine env) Request)} {id : Uuid} {req : Request}
    (h : HasRead env es id req) (hes : es <+: es') : HasRead env es' id req := by
  cases req with
  | refresh x | logout x =>
      cases x with
      | text x =>
          obtain ⟨T, hfinds, hrest⟩ := h
          exact ⟨T, hfinds.mono hes, hrest⟩
      | surrogate _ _ _ => trivial
  | _ => trivial

abbrev presenting (env : Environment) : Protocol (machine env) Request :=
  (soundProtocol env).watching fun req es o => ∀ id ∈ o.revoked, HasRead env es id req

theorem soundProtocol_free (env : Environment) : (soundProtocol env).Free where
  keeps hinv hloc hexec := ⟨exec_sound hinv hloc hexec, trivial⟩
  own h := h.own

section Statements
variable {R : Uuid → Prop}

/-- The program revokes no rows but these. -/
abbrev Revokes (R : Uuid → Prop) (p : App α) : Prop := p.All fun o : Stmt => ∀ id ∈ o.revoked, R id

theorem revokes_of_uses (as : List AuditAction) {p : App α} (h : Uses [] as p) : Revokes R p := by
  refine h.mono fun o ho id hid => ?_
  cases o <;> first | exact absurd ho (List.not_mem_nil) | simp [Stmt.revoked] at hid

theorem revokes_issue {o : Stmt} (h : ∀ id ∈ o.revoked, R id) : Revokes R (App.issue o) :=
  all_issue h

theorem revokes_recorded {r : AuditRecord} : Revokes R (AuditLogRepository.record r) :=
  revokes_of_uses [r.action] (uses_record (List.mem_singleton_self _))

theorem revokes_insert {τ : Table} {draft : τ.Draft} : Revokes R (App.insert τ draft) := by
  refine (revokes_issue (o := .insert τ draft) (by simp [Stmt.revoked])).bind fun r => ?_
  cases r <;> trivial

theorem createRotationPair_revokes {T : RefreshToken} {hash : String} {expiresAt : Time}
    (h : R T.id) : Revokes R (RefreshTokenRepository.createRotationPair T hash expiresAt) := by
  refine All.bind ?_ fun count => ?_
  · refine (revokes_issue (o := .utcNow) (by simp [Stmt.revoked])).bind fun now => ?_
    exact revokes_issue (o := .revokeIfActive _ now) (by simpa [Stmt.revoked] using h)
  · split
    · trivial
    · refine revokes_insert.bind fun child => ?_
      refine All.bind ?_ fun _ => revokes_of_uses [] (uses_commit.bind fun _ =>
        (uses_refresh _ _).bind fun _ => (uses_refresh _ _).bind fun _ => trivial)
      refine (revokes_issue (o := .updateReplacedBy _ _) (by simp [Stmt.revoked])).bind fun c => ?_
      cases c <;> trivial

theorem rotate_revokes {T : RefreshToken} (h : R T.id) : Revokes R (rotate env T) := by
  refine (revokes_issue (o := .utcNow) (by simp [Stmt.revoked])).bind fun now => ?_
  split
  · exact revokes_recorded.bind fun _ => trivial
  · refine All.bind (revokes_of_uses [] (uses_selectOne _)) fun user => ?_
    split
    · exact revokes_recorded.bind fun _ => trivial
    · refine (revokes_issue (o := .tokenUrlsafe) (by simp [Stmt.revoked])).bind fun raw => ?_
      refine All.bind (revokes_of_uses [] (hashRefreshToken_uses _)) fun hash => ?_
      refine All.bind (revokes_of_uses [] refreshTokenExpiry_uses) fun expiresAt => ?_
      refine (createRotationPair_revokes h).bind fun child => ?_
      split
      · exact revokes_recorded.bind fun _ => trivial
      · exact revokes_recorded.bind fun _ =>
          (revokes_of_uses [] (createAccessToken_uses _)).bind fun _ => trivial

theorem handleRevokedToken_revokes {T : RefreshToken} (h : T.replacedBy ≠ none → ∀ id, R id) :
    Revokes R (handleRevokedToken T) := by
  by_cases hnext : T.replacedBy = none
  · rw [handleRevokedToken, if_pos hnext]
    exact revokes_recorded.bind fun _ => trivial
  · exact (all_trivial _).mono fun o _ id _ => h hnext id

/-- A refresh that has found its token. -/
theorem refreshFound_revokes {T : RefreshToken} (h : R T.id)
    (hrotated : T.replacedBy ≠ none → ∀ id, R id) :
    Revokes R (if T.revokedAt ≠ none then do handleRevokedToken T; .raise invalidRefreshToken
      else rotate env T) := by
  split
  · exact (handleRevokedToken_revokes hrotated).bind fun _ => trivial
  · exact rotate_revokes h

end Statements

/-- A call that looks up its token first. -/
theorem watch_getByHash {f : Option RefreshToken → App Response} {i : Nat} {req : Request}
    {u : History env Request} (hown : u.own i = []) (hnone : Revokes (fun _ => False) (f none))
    (hsome : ∀ T : RefreshToken, ∃ R : Uuid → Prop, Revokes R (f (some T)) ∧
      ∀ es : List (Entry (machine env) Request), Finds es (env.sha256 x) T →
        ∀ id, R id → HasRead env es id req) :
    (presenting env).wp i req (fun _ _ _ => True)
      ((RefreshTokenRepository.getByHash (env.sha256 x)).bind f) {} u := by
  have hfree := soundProtocol_free env
  simp only [RefreshTokenRepository.getByHash, Program.bind_def, Program.bind_assoc]
  refine hfree.watch_op (o := .select .refreshTokens _) (by simp [Stmt.revoked])
    fun w rows w' l' hw hexec => ?_
  obtain ⟨g, hg, -⟩ := World.exec_step hexec
  obtain ⟨hrows, -⟩ := exec_select hg
  have hobject : ∀ T : RefreshToken, ({} : Session).object .refreshTokens T = T := fun _ => rfl
  rw [List.map_congr_left fun T _ => hobject T, List.map_id'] at hrows
  cases rows with
  | nil => exact hfree.watch_all hnone (fun o ho new id hid => (ho id hid).elim) List.nil_prefix
  | cons T others =>
      cases others with
      | cons _ _ => exact fun _ _ => trivial
      | nil =>
          have hT : T ∈ w.shared.state.refreshTokens.filter
              (·.tokenHash = env.sha256 x) := hrows ▸ List.mem_singleton_self T
          obtain ⟨hmem, hhash⟩ := List.mem_filter.mp hT
          obtain ⟨R, hrevokes, hread⟩ := hsome T
          refine hfree.watch_all hrevokes (fun o ho new id hid => ?_) (List.prefix_refl _)
          have hfirst : Finds (w'.own i) (env.sha256 x) T := by
            rw [World.own_exec_self hexec, hw.1.own, hown]
            exact ⟨_, rfl, rfl, hmem, of_decide_eq_true hhash⟩
          exact hread _ (hfirst.mono (List.prefix_append _ _)) id (ho id hid)

theorem serve_hasRead (env : Environment) :
    (presenting env).Serves (fun _ _ _ _ _ => True) (serve env) := by
  intro req i u hu hnew
  have hfree := soundProtocol_free env
  refine Protocol.watch_ensure ?_ fun l w => hfree.watch_all
    (N := (fun o : Stmt => o.revoked = none)) (all_issue rfl)
    (fun o ho new id hid => by simp [ho] at hid) List.nil_prefix
  have hown : u.own i = [] := List.filter_eq_nil_iff.mpr fun e he => by simpa using hnew e he
  have hother : (∀ es id, HasRead env es id req) →
      (presenting env).wp i req (fun _ _ _ => True) (call env req) {} u := fun hread =>
    hfree.watch_all (all_trivial _) (fun o _ new id _ => hread _ id) List.nil_prefix
  cases req with
  | refresh x =>
      cases x with
      | surrogate _ _ _ => exact hother fun _ _ => trivial
      | text x =>
          simp only [call, AuthService.refresh, Program.map_def, Program.bind_def,
            Program.bind_assoc, hashRefreshToken_text, Program.ofExcept_ok]
          refine watch_getByHash hown ?_ fun T => ?_
          · exact All.bind (All.bind revokes_recorded fun _ => trivial) fun _ => trivial
          · refine ⟨fun id => T.id = id ∨ T.replacedBy ≠ none, ?_, fun es hfinds id hid =>
              ⟨T, hfinds, hid⟩⟩
            exact (refreshFound_revokes (.inl rfl) fun hnext _ => .inr hnext).bind fun _ => trivial
  | logout x =>
      cases x with
      | surrogate _ _ _ => exact hother fun _ _ => trivial
      | text x =>
          simp only [call, AuthService.logout, Program.map_def, Program.bind_def,
            Program.bind_assoc, hashRefreshToken_text, Program.ofExcept_ok]
          refine watch_getByHash hown trivial fun T => ?_
          refine ⟨fun id => T.id = id ∧ T.revokedAt = none, ?_, fun es hfinds id hid =>
            ⟨T, hfinds, hid⟩⟩
          refine All.bind ?_ fun _ => trivial
          by_cases hlive : T.revokedAt = none
          · simp only [ne_eq, hlive, not_true_eq_false, if_false]
            refine All.bind ?_ fun _ => All.bind revokes_recorded fun _ => trivial
            refine (revokes_issue (o := .utcNow) (by simp [Stmt.revoked])).bind fun now => ?_
            refine (revokes_issue (o := .updateRevokedAt T.id now) ?_).bind fun count => ?_
            · simp [Stmt.revoked]
            · exact revokes_of_uses [] ((uses_flushOne count).bind fun _ =>
                uses_commit.bind fun _ => uses_refresh _ _)
          · simp only [ne_eq, hlive, not_false_eq_true, if_true]
            trivial
  | _ => exact hother fun _ _ => trivial

theorem revoked_of_revokes {e : Entry (machine env) Request} {id : Uuid} (h : e.mark.Revokes id) :
    e.op.revoked = some id := by
  obtain ⟨step, pid, req, op, result, before, after⟩ := e
  cases op with
  | revokeIfActive | updateRevokedAt =>
      cases h with
      | inl h | inr h => cases h <;> rfl
  | insert τ draft =>
      cases τ with
      | refreshTokens | auditLogs => cases result <;> exact (h.elim nofun nofun)
      | _ => exact (h.elim nofun nofun)
  | _ => exact (h.elim nofun nofun)

theorem ends_of_revoked {o : Stmt} {id : Uuid} (h : o.revoked = some id) : o.ends = false := by
  cases o <;> first | rfl | cases h

/-- A row that another session holds is not revoked meanwhile. -/
theorem Revoked.of_undisturbed {w w' : History env Request} {j : Nat} {id : Uuid}
    (h : Revoked w'.tokens id) (hj : Interference j w w')
    (hlock : w.shared.locks (tokenKey id) = some j) : Revoked w.tokens id := by
  obtain ⟨T, hT, rfl, hrevoked⟩ := h
  have hmem : T ∈ (w'.tokens.filter (tokenKey T.id ∈ Table.refreshTokens.keys ·)).map
      fun r => r := by
    simp [Table.keys, hT]
  rw [show (w'.tokens.filter (tokenKey T.id ∈ Table.refreshTokens.keys ·)).map (fun r => r) =
    (w.tokens.filter (tokenKey T.id ∈ Table.refreshTokens.keys ·)).map fun r => r from
      (hj.allowed.undisturbed.same _ hlock).symm] at hmem
  simp only [List.map_id', List.mem_filter] at hmem
  exact ⟨T, hmem.1, rfl, hrevoked⟩

namespace Calls.Reachable
variable (h : p.Reachable) {e : Entry (machine env) Request} {id : Uuid}
include h

/-- What a statement that revokes a row has read before. -/
theorem hasRead (he : e ∈ p.world.trace) (hm : e.mark.Revokes id) :
    HasRead env (p.world.own e.pid) id e.request := by
  obtain ⟨t, ht, hr⟩ := h
  have hkept : (presenting env).Kept (fun _ _ _ _ _ => True) (Calls.fresh env t) :=
    Protocol.kept_start (Calls.sound_fresh ht.ready).inv rfl
  cases hkept.guaranteed (serve_hasRead env) hr he with
  | inl he => cases he
  | inr hsplit =>
      obtain ⟨q, q', -, hstep, hr', -, -, htrace, -, hread⟩ := hsplit
      obtain ⟨new, hnew⟩ := Reaches.trace (.head hstep hr')
      refine (hread id (revoked_of_revokes hm)).mono ?_
      rw [World.own, World.own, hnew, List.filter_append]
      exact List.prefix_append _ _

/-- A refresh that revoked the last token of a family came to it from an older one. -/
theorem walked_to (hd : env.Distinct) (hr : Reaches (serve env) p p') {i : Nat}
    {out : Except Error Response} {l : Session} {e₀ : Entry (machine env) Request}
    {T : RefreshToken} (hdead : Dead p.world.tokens id) (he : e ∈ p'.world.own i)
    (hm : e.mark.Revokes id) (hpost : TokenPost env (.refresh x) i out l p'.world)
    (he₀ : e₀ ∈ p.world.trace) (hT : T ∈ tokensOf e₀.before) (hhash : T.tokenHash = env.sha256 x) :
    ∃ n, rotation.Links p'.world.tokens (n + 1) T.id id := by
  have hp' := h.reaches hr
  cases out with
  | ok response =>
      obtain ⟨tokens, -, hrotation⟩ := hpost
      obtain ⟨P, hP, -, -, c, hnext, -, -, -, -, honly⟩ := hrotation.rows
      obtain ⟨R, hR, hid, -, hnone⟩ := hdead.evolves (h.evolves hr)
      obtain rfl := hp'.inv.families.row_unique hR hP (hid.trans (honly e he id hm))
      simp [hnone] at hnext
  | error error =>
      obtain ⟨T', hT', hhash', n, hlinks⟩ := Rejection.revokes hpost e he id hm
      obtain ⟨T₁, hT₁, hev⟩ := (h.evolves_before he₀).kept T hT
      obtain ⟨T₂, hT₂, hev'⟩ := (h.evolves hr).kept T₁ hT₁
      have hsame := hp'.inv.row_of_hash hd hT' hT₂
        (by rw [hhash', hev'.tokenHash, hev.tokenHash, hhash])
      rw [hsame, hev'.id, hev.id] at hlinks
      exact ⟨n, hlinks⟩

/-- The statement that made a revocation visible was the commit of the call that had written it. -/
theorem committed_revocation (hrevoked : Revoked p.world.tokens id) : ∃ commit ∈ p.world.trace,
    (∃ kill ∈ p.world.own commit.pid, kill.mark.Revokes id ∧ kill.step < commit.step) ∧
      (∃ T ∈ tokensOf commit.before, T.id = id ∧ T.revokedAt = none) ∧
        Revoked (tokensOf commit.after) id := by
  obtain ⟨t, ht, hr⟩ := h
  induction hr with
  | refl =>
      obtain ⟨T, hT, -⟩ := hrevoked
      rw [show (Calls.fresh env t).world.tokens = [] from ht.refreshTokens] at hT
      cases hT
  | @tail q p hr hs ih =>
      have hq : Calls.Reachable q := ⟨t, ht, hr⟩
      have hp : Calls.Reachable p := ⟨t, ht, hr.tail hs⟩
      by_cases hbefore : Revoked q.world.tokens id
      · obtain ⟨commit, hcommit, ⟨kill, hkill, hrest⟩, hrow⟩ := ih hbefore
        obtain ⟨new, hnew⟩ := hs.trace
        have hown : q.world.own commit.pid ⊆ p.world.own commit.pid := by
          rw [World.own, World.own, hnew, List.filter_append]
          exact List.subset_append_left _ _
        exact ⟨commit, hnew ▸ List.mem_append_left _ hcommit, ⟨kill, hown hkill, hrest⟩, hrow⟩
      · cases hs with
        | spawn req => exact absurd hrevoked hbefore
        | @exec i th o k r w l hth hcode hexec =>
            have htrace := World.exec_trace hexec
            have hafter : Revoked w.tokens id := hrevoked
            obtain ⟨T, hT, hid, hTrevoked⟩ := hrevoked
            obtain ⟨kill, hkill, hm⟩ := hp.inv.caused T hT hTrevoked
            rw [hid] at hm
            have hkill : kill ∈ q.world.trace := by
              refine (List.mem_append.mp (htrace ▸ hkill)).resolve_right fun hlast => ?_
              obtain rfl := List.mem_singleton.mp hlast
              obtain ⟨g, hg, hshared, -⟩ := World.exec_step hexec
              have hends := ends_of_revoked (revoked_of_revokes hm)
              have hstate := ((exec_effect hg).grows hends).1
              rw [← hshared] at hstate
              exact hbefore (by rwa [World.tokens, tokensOf, hstate] at hafter)
            -- who has written a row holds it until the end of the transaction
            obtain ⟨hlock, hkey⟩ := (hq.inv.revokes kill hkill id hm).resolve_left hbefore
            have hpid : kill.pid = i := by
              by_contra hother
              have hrely := ((hq.kept.exec hth hcode hexec).2.2.2 kill.pid hother).1
              exact hbefore (hafter.of_undisturbed hrely hlock)
            obtain ⟨τ, L, hL, hLid⟩ := Tables.hasKey_iff.mp hkey
            obtain rfl : Table.refreshTokens = τ := Table.mem_keys_table hLid
            have hLid : L.id = id := by simpa [Table.keys, eq_comm] using hLid
            refine ⟨_, htrace ▸ List.mem_append_right _ (List.mem_singleton_self _),
              ⟨kill, ?_, hm, ?_⟩, ⟨L, hL, hLid, ?_⟩, hafter⟩
            · exact World.mem_own.mpr ⟨htrace ▸ List.mem_append_left _ hkill, hpid⟩
            · obtain ⟨n, hn⟩ := List.mem_iff_getElem?.mp hkill
              rw [hq.inv.sound.placed n kill hn]
              exact (List.getElem?_eq_some_iff.mp hn).1
            · by_contra hlive
              exact hbefore ⟨L, hL, hLid, hlive⟩

end Calls.Reachable

/-- A session ends for one of two reasons only, whatever interleaves. The last token of its family
is made revoked by the commit of one call: a logout that had looked for this token and found it
unrevoked, or a refresh that had looked for an older one and found it rotated away. -/
theorem sessions_end_for_cause (hd : env.Distinct) (h : p.Reachable) {r : RefreshToken}
    (hr : r ∈ p.world.tokens) (hover : FamilyRevoked p.world.tokens r.id) :
    ∃ D ∈ p.world.tokens, (rotation.Joined p.world.tokens r.id D.id ∧ D.replacedBy = none) ∧
      ∃ commit ∈ p.world.trace,
        (∃ kill ∈ p.world.own commit.pid, kill.mark.Revokes D.id ∧ kill.step < commit.step) ∧
        ((∃ L ∈ tokensOf commit.before, L.id = D.id ∧ L.revokedAt = none) ∧
          Revoked (tokensOf commit.after) D.id) ∧
        ∃ (x : String) (T : RefreshToken), Finds (p.world.own commit.pid) (env.sha256 x) T ∧
          ((commit.request = .logout x ∧ T.id = D.id ∧ T.revokedAt = none) ∨
            (commit.request = .refresh x ∧ T.replacedBy ≠ none ∧
              ∃ n, rotation.Links p.world.tokens (n + 1) T.id D.id)) := by
  have hinv := h.inv
  obtain ⟨n, D, hD, hlinks, hend⟩ := hinv.families.exists_last hr
  have hrevoked := hover D hD hlinks.joined
  have hdead : Dead p.world.tokens D.id := ⟨D, hD, rfl, hrevoked, hend⟩
  obtain ⟨commit, hcommit, ⟨kill, hkill, hm, hstep⟩, hrow⟩ :=
    h.committed_revocation ⟨D, hD, rfl, hrevoked⟩
  obtain ⟨hmem, hpid⟩ := World.mem_own.mp hkill
  have hread := h.hasRead hmem hm
  rw [hpid] at hread
  obtain ⟨th, hth, hreq⟩ := h.owned kill hmem
  have hrequest : commit.request = kill.request := by
    obtain ⟨th₀, hth₀, hreq₀⟩ := h.owned commit hcommit
    rw [← hpid, hth, Option.some.injEq] at hth₀
    exact hreq₀.symm.trans (hth₀ ▸ hreq)
  -- the call that revoked the last token is let run to its end
  obtain ⟨p', th', hr', hth', hreq', hdone⟩ := exists_ended hd h hth
  obtain ⟨out, hout⟩ := Option.ne_none_iff_exists'.mp hdone
  have hpost := (h.reaches hr').outcome hth' hout
  rw [hreq', hreq] at hpost
  have hown : kill ∈ p'.world.own kill.pid := by
    obtain ⟨new, hnew⟩ := Reaches.trace hr'
    exact World.mem_own.mpr ⟨hnew ▸ List.mem_append_left _ hmem, rfl⟩
  refine ⟨D, hD, ⟨hlinks.joined, hend⟩, commit, hcommit, ⟨kill, hkill, hm, hstep⟩, hrow, ?_⟩
  rw [hrequest]
  have hidle : (∀ e ∈ p'.world.own kill.pid, e.mark.Idle) → False := fun hidle =>
    (hidle kill hown).1 D.id hm
  cases hx : kill.request with
  | logout x =>
      rw [hx] at hread hpost
      cases x with
      | surrogate _ _ _ => exact (hidle hpost.2).elim
      | text x =>
          obtain ⟨T, hfinds, hT⟩ := hread
          exact ⟨x, T, hfinds, .inl ⟨rfl, hT⟩⟩
  | refresh x =>
      rw [hx] at hread hpost
      cases x with
      | surrogate _ _ _ => exact (hidle hpost.2).elim
      | text x =>
          obtain ⟨T, hfinds, hcase⟩ := hread
          obtain ⟨look, hlook, -, hT, hhash⟩ := id hfinds
          have hlook := (World.mem_own.mp (List.mem_of_head? hlook)).1
          obtain ⟨n, hafter⟩ := h.walked_to hd hr' hdead hown hm hpost hlook hT hhash
          have hback := (h.evolves hr').links_back hafter hD
          refine ⟨x, T, hfinds, .inr ⟨rfl, hcase.resolve_left ?_, n, hback⟩⟩
          exact hinv.families.linear.links_ne hback
  | login email password =>
      rw [hx] at hpost
      exact absurd hm (hpost kill hown D.id)
  | _ =>
      rw [hx] at hpost
      exact (hidle hpost).elim

/-- Two refreshes race for the token of a login, and a third one presents it once more. -/
def contested : Calls plainEnvironment :=
  loggedIn.played (serve plainEnvironment)
    [.spawn (.refresh (plainEnvironment.token 18)), .spawn (.refresh (plainEnvironment.token 18)),
      .exec 2, .exec 3, .finish 2, .finish 3, .spawn (.refresh (plainEnvironment.token 18)),
      .finish 4]

/-- The third one is the cause. -/
theorem sessions_end_for_cause_contested : ∃ r ∈ contested.world.tokens,
    FamilyRevoked contested.world.tokens r.id ∧
    ∃ commit ∈ contested.world.trace,
      ∃ (x : String) (T : RefreshToken),
        Finds (contested.world.own commit.pid) (plainEnvironment.sha256 x) T ∧
          commit.request = .refresh x ∧ T.replacedBy ≠ none := by
  have hrow : ∃ r, r ∈ contested.world.tokens :=
    List.exists_mem_of_ne_nil _ (by decide +kernel)
  obtain ⟨r, hr⟩ := hrow
  have hover : FamilyRevoked contested.world.tokens r.id := by
    have hall : ∀ r ∈ contested.world.tokens, r.revokedAt ≠ none := by decide +kernel
    exact fun r hr _ => hall r hr
  have hlogout : ∀ e ∈ contested.world.trace, ∀ x, e.request ≠ .logout x := by
    have hall : ∀ e ∈ contested.world.trace, e.request ∈ [Request.register "a" "p",
        .login "a" "p", .refresh (plainEnvironment.token 18)] := by
      decide +kernel
    intro e he x heq
    simpa [heq] using hall e he
  obtain ⟨D, -, -, commit, hcommit, -, -, x, T, hfinds, hcause⟩ :=
    sessions_end_for_cause plainEnvironment_distinct (loggedIn_reachable.played _) hr hover
  obtain ⟨hreq, hnext, -⟩ := hcause.resolve_left fun h => hlogout commit hcommit x h.1
  exact ⟨r, hr, hover, commit, hcommit, x, T, hfinds, hreq, hnext⟩

end SecureIam
