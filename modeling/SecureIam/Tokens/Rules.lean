import SecureIam.Services.Statements
import SecureIam.Tokens.Protocol

/-!
The rules of the token protocol, one for each statement that concerns the tokens and
one for recording an event. Each says where the thread stands after the statement,
whatever the others did before it.
-/
namespace SecureIam
open Lib
variable {env : Environment} {α : Type} {i : Nat} {req : Request} {l l' : Session}
  {u v w w' : History env Request} {o : Stmt} {r : o.Res}
  {Q : Protocol.Post (machine env) Request Error α}

/-- Thread `i`, left in `u` by its last statement, got `o` through in `v` and is in `w`. -/
structure Ran (i : Nat) (req : Request) (o : Stmt) (r : o.Res) (l l' : Session)
    (u v w : History env Request) : Prop where
  later : (tokenProtocol env).Later i l u v
  exec : v.exec i req o l = some (r, w, l')
  inv : TokenInv w
  evolves : Evolves u.tokens w.tokens

/-- The entry that the statement leaves. -/
abbrev entry (i : Nat) (req : Request) (o : Stmt) (r : o.Res) (v w : History env Request) :
    Entry (machine env) Request :=
  ⟨v.trace.length, i, req, o, r, v.shared, w.shared⟩

namespace Ran
variable (h : Ran i req o r l l' u v w)
include h

theorem own : w.own i = u.own i ++ [entry i req o r v w] := by
  rw [World.own_exec_self h.exec, h.later.1.1.own]

theorem mem_own : entry i req o r v w ∈ w.own i := by
  rw [h.own]
  exact List.mem_append_right _ (List.mem_singleton_self _)

theorem kept {e : Entry (machine env) Request} (he : e ∈ u.own i) : e ∈ w.own i := by
  rw [h.own]
  exact List.mem_append_left _ he

theorem lasts : u.shared.state.Lasts w.shared.state := by
  intro k hk hkey
  exact exec_lasts h.later.2.2 h.exec k hk (h.later.1.1.allowed.lasts k hk hkey)

theorem result : ∃ g, SecureIam.exec env v.trace.length i o v.shared l = some (r, g, l') ∧
    w.shared = g := by
  obtain ⟨g, hg, hw, -⟩ := World.exec_step h.exec
  exact ⟨g, hg, hw⟩

end Ran

/-- The owner of a token is a user. -/
theorem TokenInv.hasOwner (hw : TokenInv w) {T : RefreshToken} (hT : T ∈ w.tokens) :
    w.shared.state.hasKey (.primary .users T.userId) :=
  hw.sound.schema.references .refreshTokens T hT _ List.mem_cons_self

/-- A row that the thread holds a lock on is as it left it. -/
theorem Lib.Protocol.Later.row (h : (tokenProtocol env).Later i l u v) {x : RefreshToken}
    {p : Write} (hp : p ∈ l.pending) (hkey : tokenKey x.id ∈ p.keys) (hx : x ∈ u.tokens) :
    x ∈ v.tokens := by
  have hlock := h.2.2.holds.locked p hp _ hkey
  have hsame := h.1.1.allowed.undisturbed.same _ ((h.1.1.allowed.undisturbed.locks _).mp hlock)
  have hmem : x ∈ (u.tokens.filter (tokenKey x.id ∈ Table.refreshTokens.keys ·)).map
      fun r => r := by
    simp [Table.keys, hx]
  rw [show (u.tokens.filter (tokenKey x.id ∈ Table.refreshTokens.keys ·)).map (fun r => r) =
    (v.tokens.filter (tokenKey x.id ∈ Table.refreshTokens.keys ·)).map fun r =>
    r from hsame] at hmem
  simp only [List.map_id', List.mem_filter] at hmem
  exact hmem.1

theorem Lib.Protocol.Later.hasKey (h : (tokenProtocol env).Later i l u v) {k : LockKey}
    (hk : ¬ k.table.Link) (hkey : u.shared.state.hasKey k) : v.shared.state.hasKey k :=
  h.1.1.allowed.lasts k hk hkey

/-- The entry neither sets `revoked_at` nor inserts a token. -/
def Mark.Idle (m : Mark) : Prop := (∀ id, ¬ m.Revokes id) ∧ ∀ x, m ≠ .issued x

theorem Mark.Neutral.idle {m : Mark} (hm : m.Neutral) : m.Idle := by
  refine ⟨fun id => hm.not_revokes, fun x hx => ?_⟩
  subst hx
  exact hm

theorem Mark.idle_recorded (row : AuditLog) : (recorded row).Idle := by
  refine ⟨fun id hm => ?_, fun x hm => (nomatch hm)⟩
  cases hm with
  | inl hm => cases hm
  | inr hm => cases hm

/-- Thread `i` did nothing else since `past`. -/
def IdleSince (past : List (Entry (machine env) Request)) (i : Nat) (w : History env Request) :
    Prop :=
  ∃ new, w.own i = past ++ new ∧ ∀ e ∈ new, e.mark.Idle

/-- From `w` to `w'` the rows evolved, and thread `i` did nothing of importance. -/
structure Passed (i : Nat) (w w' : History env Request) : Prop where
  families : Families w.tokens
  evolves : Evolves w.tokens w'.tokens
  lasts : w.shared.state.Lasts w'.shared.state
  idle : IdleSince (w.own i) i w'

theorem Passed.hasKey (h : Passed i w w') {k : LockKey} (hk : ¬ k.table.Link)
    (hkey : w.shared.state.hasKey k) : w'.shared.state.hasKey k :=
  h.lasts k hk hkey

theorem Passed.mem (h : Passed i w w') {e : Entry (machine env) Request} (he : e ∈ w.own i) :
    e ∈ w'.own i := by
  obtain ⟨new, hown, -⟩ := h.idle
  rw [hown]
  exact List.mem_append_left _ he

theorem Passed.cases (h : Passed i w w') {e : Entry (machine env) Request} (he : e ∈ w'.own i) :
    e ∈ w.own i ∨ e.mark.Idle := by
  obtain ⟨new, hown, hnew⟩ := h.idle
  rw [hown, List.mem_append] at he
  exact he.imp_right (hnew e)

theorem Passed.getElem? (h : Passed i w w') {n : Nat} {e : Entry (machine env) Request}
    (he : (w.own i)[n]? = some e) : (w'.own i)[n]? = some e := by
  obtain ⟨new, hown, -⟩ := h.idle
  rw [hown, List.getElem?_append_left (List.getElem?_eq_some_iff.mp he).1]
  exact he

theorem Passed.refl (i : Nat) (hu : Families u.tokens) : Passed i u u :=
  ⟨hu, .refl _, schema.lasts_refl _, [], (List.append_nil _).symm, by simp⟩

theorem Passed.trans (h : Passed i u v) (h' : Passed i v w) : Passed i u w := by
  obtain ⟨new, hown, hnew⟩ := h.idle
  obtain ⟨new', hown', hnew'⟩ := h'.idle
  refine ⟨h.families, h.evolves.trans h'.evolves, schema.lasts_trans h.lasts h'.lasts,
    new ++ new', ?_, fun e he => ?_⟩
  · rw [hown', hown, List.append_assoc]
  · exact (List.mem_append.mp he).elim (hnew e) (hnew' e)

theorem Ran.passed {r : o.Res} (h : Ran i req o r l l' u v w) (hu : Families u.tokens)
    (hm : (Stmt.mark o r).Idle) : Passed i u w := by
  refine ⟨hu, h.evolves, h.lasts, [_], h.own, fun e he => ?_⟩
  exact List.mem_singleton.mp he ▸ hm

theorem Lib.Protocol.Later.passed (hu : Families u.tokens) (h : (tokenProtocol env).Later i l u v) :
    Passed i u v :=
  ⟨hu, h.1.2, h.1.1.allowed.lasts, [], by rw [h.1.1.own, List.append_nil], by simp⟩

/-- The general rule: account for the statement, then go on. -/
theorem wp_op {f : o.Res → App α}
    (h : ∀ v r w l', (tokenProtocol env).Later i l u v → v.exec i req o l = some (r, w, l') →
      Accounted v w i (Stmt.mark o r) ∧ Published v w ∧
        (Ran i req o r l l' u v w → (tokenProtocol env).wp i req Q (f r) l' w)) :
    (tokenProtocol env).wp i req Q ((App.issue o).bind f) l u := by
  intro v hv r w l' hexec
  obtain ⟨ha, hp, hf⟩ := h v r w l' hv hexec
  have hinv : TokenInv w := hv.2.1.step hv.2.2 hexec ha hp
  exact ⟨hinv, hp.evolves, hf ⟨hv, hexec, hinv, hv.1.2.trans hp.evolves⟩⟩

/-- Statements inside a transaction that mean nothing for the tokens. -/
theorem wp_quiet {f : o.Res → App α} (ho : o.ends = false) (hm : ∀ r, (Stmt.mark o r).Neutral)
    (h : ∀ v r w l', Ran i req o r l l' u v w → w.shared.state = v.shared.state →
      (tokenProtocol env).wp i req Q (f r) l' w) :
    (tokenProtocol env).wp i req Q ((App.issue o).bind f) l u := by
  refine wp_op fun v r w l' hv hexec => ?_
  obtain ⟨hinv, hstate⟩ := hv.2.1.quiet hv.2.2 hexec ho (hm r)
  obtain ⟨g, hg, hwg, -⟩ := World.exec_step hexec
  obtain ⟨-, hlocks, -⟩ := (exec_effect hg).grows ho
  refine ⟨(hm r).accounted, ?_, fun hran => h v r w l' hran hstate⟩
  exact hv.2.1.published (congrArg Tables.refreshTokens hstate) fun id j =>
    hwg ▸ hlocks (tokenKey id) j

/-- A SELECT outside of any transaction returns the mapped objects of committed rows. -/
theorem wp_select {τ : Table} {q : Tables → List τ.Row} {f : List τ.Row → App α}
    (hp : l.pending = [])
    (h : ∀ v w l', Ran i req (.select τ q) ((q v.shared.state).map (l.object τ)) l l' u v w →
      w.shared.state = v.shared.state →
      l' = (l.touch v.trace.length).load τ (q v.shared.state) →
      (tokenProtocol env).wp i req Q (f ((q v.shared.state).map (l.object τ))) l' w) :
    (tokenProtocol env).wp i req Q ((App.select τ q).bind f) l u := by
  refine wp_quiet (o := .select τ q) rfl (fun _ => trivial) fun v r w l' hran hstate => ?_
  obtain ⟨g, hg, -⟩ := hran.result
  obtain ⟨rfl, -, rfl⟩ := exec_select hg
  rw [Session.view_of_nil hp] at hran ⊢
  exact h v w _ hran hstate rfl

theorem wp_utcNow {f : Time → App α}
    (h : ∀ v w, Ran i req .utcNow (env.clock v.trace.length) l l u v w →
      w.shared.state = v.shared.state →
      (tokenProtocol env).wp i req Q (f (env.clock v.trace.length)) l w) :
    (tokenProtocol env).wp i req Q (App.utcNow.bind f) l u := by
  refine wp_quiet (o := .utcNow) rfl (fun _ => trivial) fun v r w l' hran hstate => ?_
  obtain ⟨g, hg, -⟩ := hran.result
  obtain ⟨rfl, -, rfl⟩ := exec_utcNow hg
  exact h v w hran hstate

theorem wp_tokenUrlsafe {f : String → App α}
    (h : ∀ v w, Ran i req .tokenUrlsafe (env.token v.trace.length) l l u v w →
      w.shared.state = v.shared.state →
      (tokenProtocol env).wp i req Q (f (env.token v.trace.length)) l w) :
    (tokenProtocol env).wp i req Q (generateRefreshToken.bind f) l u := by
  refine wp_quiet (o := .tokenUrlsafe) rfl (fun _ => trivial) fun v r w l' hran hstate => ?_
  obtain ⟨g, hg, -⟩ := hran.result
  obtain ⟨rfl, -, rfl⟩ := exec_tokenUrlsafe hg
  exact h v w hran hstate

theorem wp_createAccessToken {userId : String} {f : String → App α} (hu : Families u.tokens)
    (h : ∀ w token, TokenInv w → Passed i u w → (tokenProtocol env).wp i req Q (f token) l w) :
    (tokenProtocol env).wp i req Q ((createAccessToken env userId).bind f) l u := by
  simp only [createAccessToken, App.uuid4, Program.bind_def, Program.bind_assoc, Program.pure_def,
    Program.ret_bind]
  refine wp_utcNow fun v₁ w₁ hran₁ _ => ?_
  refine wp_quiet (o := .uuid4) rfl (fun _ => trivial) fun v₂ r w₂ l₂ hran₂ _ => ?_
  obtain ⟨g, hg, -⟩ := hran₂.result
  obtain ⟨-, -, rfl⟩ := exec_uuid4 hg
  exact h w₂ _ hran₂.inv ((hran₁.passed hu (Mark.Neutral.idle trivial)).trans
    (hran₂.passed hran₁.inv.families (Mark.Neutral.idle trivial)))

/-- `session.refresh` of a row that nobody can delete. -/
theorem wp_refresh {τ : Table} {id : Uuid} {f : τ.Row → App α} (hp : l.pending = [])
    (hτ : ¬ τ.Link) (hkey : u.shared.state.hasKey (.primary τ id))
    (h : ∀ v w l' row, Ran i req (.refresh τ id) (some row) l l' u v w →
      w.shared.state = v.shared.state → l' = (l.touch v.trace.length).reload τ row →
      row ∈ v.shared.state.rows τ → .primary τ id ∈ τ.keys row →
      (tokenProtocol env).wp i req Q (f row) l' w) :
    (tokenProtocol env).wp i req Q ((App.refresh τ id).bind f) l u := by
  simp only [App.refresh, Program.bind_def, Program.bind_assoc]
  refine wp_quiet (o := .refresh τ id) rfl (fun _ => trivial) fun v r w l' hran hstate => ?_
  obtain ⟨g, hg, -⟩ := hran.result
  have hkey' : v.shared.state.hasKey (.primary τ id) :=
    Protocol.Later.hasKey (k := .primary τ id) hran.later hτ hkey
  rw [← Session.view_of_nil hp] at hkey'
  obtain ⟨row, hrow, hid, rfl, -, rfl⟩ := exec_refresh hg hkey'
  rw [Session.view_of_nil hp] at hrow
  exact h v w _ row hran hstate rfl hrow hid

/-! Recording an event. -/

/-- What the walk of the call has to leave for its reuse event. -/
def Justified (env : Environment) (req : Request) (past : List (Entry (machine env) Request))
    (a : AuditRecord) : Prop :=
  a.action = .refreshTokenReuseDetected →
    ∃ (x : String) (b : Bool) (last : Entry (machine env) Request), ∃ T ∈ tokensOf last.after,
    req = .refresh x ∧ T.tokenHash = env.sha256 x ∧ T.replacedBy ≠ none ∧
    a.eventMetadata =
      some [("presented_token_id", .uuid T.id), ("family_already_revoked", .bool b)] ∧
    past.getLast? = some last ∧
    (FamilyRevoked (tokensOf last.after) T.id ∨
      (∃ e ∈ past, ∃ c, e.mark = .guard c 0 ∧ Rotated (tokensOf e.before) c) ∨
      ∃ c, rotation.Links (tokensOf last.after)
        (RefreshTokenRepository.maxFamilyWalkSteps + 1) T.id c)

theorem Justified.truthful {a : AuditRecord} {past : List (Entry (machine env) Request)}
    (h : Justified env req past a) {e : Entry (machine env) Request}
    (hown : w.own i = past ++ [e]) (hpid : e.pid = i) (hreq : e.request = req) {id : Uuid}
    {now : Time} (hm : e.mark = .recorded ((AuditLogRepository.draft a).row id now)) :
    Truthful w e := by
  intro row hrow ha
  obtain rfl : (AuditLogRepository.draft a).row id now = row := by
    rw [hm] at hrow
    exact Mark.recorded.inj hrow
  obtain ⟨x, b, last, T, hT, hx, hhash, hnext, hmeta, hlast, hrest⟩ := h ha
  refine ⟨x, b, last, T, hT, hreq.trans hx, hhash, hnext, hmeta, ?_, ?_⟩
  · obtain ⟨init, rfl⟩ := List.getLast?_eq_some_iff.mp hlast
    rw [hpid, hown, List.append_assoc]
    exact (List.suffix_append init [last, e]).isInfix
  · cases hrest with
    | inl hdead => exact .inl hdead
    | inr hrest =>
        cases hrest with
        | inl hlost =>
            obtain ⟨e', he', hlost⟩ := hlost
            refine .inr (.inl ⟨e', ?_, hlost⟩)
            rw [hpid, hown]
            exact List.mem_append_left _ he'
        | inr hlong => exact .inr (.inr hlong)

/-- The row that an INSERT adds when it is issued in `v`. -/
abbrev Table.Draft.rowAt {τ : Table} (draft : τ.Draft) (l : Session) (v : History env Request) :
    τ.Row :=
  draft.row (env.uuid v.trace.length) (l.now env v.trace.length)

theorem wp_insert {τ : Table} {draft : τ.Draft} {f : τ.Row → App α}
    (hkeys : ∀ id now, τ.keys (draft.row id now) = [.primary τ id])
    (href : ∀ id now, ∀ k ∈ τ.references (draft.row id now), u.shared.state.hasKey k)
    (hmark : ∀ v w, w.own i =
      u.own i ++ [entry i req (.insert τ draft) (some (draft.rowAt l v)) v w] →
      Interference i u v → Accounted v w i (Stmt.mark (.insert τ draft) (some (draft.rowAt l v))))
    (h : ∀ v w l', Ran i req (.insert τ draft) (some (draft.rowAt l v)) l l' u v w →
      w.shared.state = v.shared.state →
      l' = ((l.touch v.trace.length).push (.insert τ (draft.rowAt l v))).reload
        τ (draft.rowAt l v) → (tokenProtocol env).wp i req Q (f (draft.rowAt l v)) l' w) :
    (tokenProtocol env).wp i req Q ((App.insert τ draft).bind f) l u := by
  simp only [App.insert, Program.bind_def, Program.bind_assoc]
  refine wp_op (o := .insert τ draft) fun v r w l₁ hv hexec => ?_
  obtain ⟨g, hg, rfl, -⟩ := World.exec_step hexec
  have hrefs : ∀ k ∈ τ.references (draft.rowAt l v), (l.view v.shared).hasKey k := by
    intro k hk
    have hkey := hv.hasKey (Table.not_link_references hk) (href _ _ k hk)
    exact Constraints.lasts_view (C := schema) l.pending _ k (Table.not_link_references hk) hkey
  obtain ⟨rfl, rfl⟩ := exec_insert_fresh hv.2.1.sound.fresh hv.2.2 hkeys hrefs hg
  obtain ⟨hstate, hlocks, -⟩ := (exec_effect hg).grows rfl
  have hown : w.own i = u.own i ++ [entry i req (.insert τ draft) (some (draft.rowAt l v)) v w] :=
    (World.own_exec_self hexec).trans (by rw [hv.1.1.own])
  refine ⟨hmark v w hown hv.1.1, ?_, fun hran => h v w _ hran hstate rfl⟩
  exact hv.2.1.published (congrArg Tables.refreshTokens hstate) fun id j => hlocks (tokenKey id) j

theorem wp_commit {f : Unit → App α}
    (hpub : ∀ v w, (tokenProtocol env).Later i l u v → w.shared = v.shared.commit i l.pending →
      Published v w)
    (h : ∀ v w, Ran i req .commit () l { l with began := none, pending := [] } u v w →
      w.shared = v.shared.commit i l.pending →
      (tokenProtocol env).wp i req Q (f ()) { l with began := none, pending := [] } w) :
    (tokenProtocol env).wp i req Q (App.commit.bind f) l u := by
  refine wp_op (o := .commit) fun v r w l₁ hv hexec => ?_
  obtain ⟨g, hg, hwg, -⟩ := World.exec_step hexec
  obtain ⟨rfl, rfl⟩ := exec_commit hg
  exact ⟨Mark.Neutral.accounted trivial, hpub v w hv hwg, fun hran => h v w hran hwg⟩

theorem Published.of_commit_tokenFree (hfree : l.TokenFree)
    (hv : (tokenProtocol env).Later i l u v) (hw : w.shared = v.shared.commit i l.pending) :
    Published v w := by
  refine .of_tokenFree hv.2.1 hv.2.2 hfree ?_ (congrArg Store.Committed.locks hw)
  exact (congrArg tokensOf hw).trans (tokens_view hfree _)

/-- An event that can be recorded is: it refers to existing rows only. -/
theorem wp_record {a : AuditRecord} {f : AuditLog → App α} (hu : Families u.tokens)
    (hp : l.pending = [])
    (hactor : ∀ actor, a.actorUserId = some actor → u.shared.state.hasKey (.primary .users actor))
    (horg : a.organizationId = none) (hjust : Justified env req (u.own i) a)
    (h : ∀ w l' row, TokenInv w → Passed i u w → l'.pending = [] →
      l'.refreshTokens = l.refreshTokens → (tokenProtocol env).wp i req Q (f row) l' w) :
    (tokenProtocol env).wp i req Q ((AuditLogRepository.record a).bind f) l u := by
  simp only [AuditLogRepository.record, Program.bind_def, Program.bind_assoc]
  refine wp_insert (fun _ _ => rfl) (fun id now k hk => ?_) (fun v w hown hv => ?_)
    fun v w l₁ hran hstate hl₁ => ?_
  · simp only [Table.references, AuditLogRepository.draft, horg, Option.toList_none, List.map_nil,
      List.append_nil, List.mem_map, Option.mem_toList] at hk
    obtain ⟨actor, hactor', rfl⟩ := hk
    exact hactor actor hactor'
  · have hidle := Mark.idle_recorded ((AuditLogRepository.draft a).rowAt l v)
    refine ⟨fun id hm => absurd hm (hidle.1 id), fun id hm => (by cases hm),
      fun x hm => (by cases hm), fun e he hpid hm => ?_⟩
    obtain rfl : e = entry i req _ _ v w := by
      have hlast := hown.symm.trans he
      rw [hv.own, List.append_cancel_left_eq] at hlast
      exact (List.singleton_inj.mp hlast).symm
    exact hjust.truthful hown rfl rfl rfl
  · have hpend : l₁.pending = [.insert .auditLogs ((AuditLogRepository.draft a).rowAt l v)] := by
      simp [hl₁, hp]
    have hfree : l₁.TokenFree := by
      intro p hp'
      rw [hpend, List.mem_singleton] at hp'
      exact hp' ▸ trivial
    refine wp_commit (fun v w => Published.of_commit_tokenFree hfree) fun v₂ w₂ hran₂ hw₂ => ?_
    have hkey : w₂.shared.state.hasKey
        (.primary .auditLogs ((AuditLogRepository.draft a).rowAt l v).id) := by
      rw [hw₂, hpend]
      refine Tables.hasKey_iff.mpr ⟨.auditLogs, (AuditLogRepository.draft a).rowAt l v, ?_, ?_⟩
      · exact List.mem_append_right _ (List.mem_singleton_self _)
      · exact List.mem_singleton_self _
    refine wp_refresh rfl (by simp [Table.Link]) hkey fun v₃ w₃ l₃ row hran₃ _ hl₃ _ _ => ?_
    have hpassed : Passed i u w₃ :=
      ((hran.passed hu (Mark.idle_recorded _)).trans
        (hran₂.passed hran.inv.families (Mark.Neutral.idle trivial))).trans
        (hran₃.passed hran₂.inv.families (Mark.Neutral.idle trivial))
    refine h w₃ l₃ row hran₃.inv hpassed (by simp [hl₃]) ?_
    rw [hl₃, hl₁]
    rfl

/-! Revoking and rotating a token. -/

/-- A statement that takes the lock of a row, inside a transaction, changes nothing yet. -/
theorem Published.of_quiet {n : Nat} {g : Database} (hw : TokenInv v)
    (hg : exec env n i o v.shared l = some (r, g, l')) (ho : o.ends = false) (hwg : w.shared = g) :
    Published v w := by
  subst hwg
  obtain ⟨hstate, hlocks, -⟩ := (exec_effect hg).grows ho
  exact hw.published (congrArg Tables.refreshTokens hstate) fun id j => hlocks (tokenKey id) j

theorem lock_of_write {g g' : Database} {p : Write} {k : LockKey} (hw : g.write i p = some g')
    (hk : k ∈ p.keys) : g'.locks k = some i := by
  obtain ⟨-, rfl⟩ := Store.write_eq_some.mp hw
  exact if_pos hk

theorem hasKey_token {t : Tables} {id : Uuid} :
    t.hasKey (tokenKey id) ↔ ∃ x ∈ t.refreshTokens, x.id = id := by
  rw [Tables.hasKey, List.any_eq_true]
  constructor
  · intro hkey
    obtain ⟨x, hx, hk⟩ := hkey
    have hk' : tokenKey id ∈ [tokenKey x.id] := of_decide_eq_true hk
    exact ⟨x, hx, (LockKey.primary.inj (List.mem_singleton.mp hk')).2.symm⟩
  · intro hrow
    obtain ⟨x, hx, hid⟩ := hrow
    exact ⟨x, hx, decide_eq_true (hid ▸ List.mem_singleton_self (tokenKey x.id))⟩

/-- `UPDATE ... WHERE id = :id AND revoked_at IS NULL`, as the first write of a
transaction. Whoever set `revoked_at` before has published it. -/
theorem wp_revokeIfActive {id : Uuid} {t : Time} {f : Nat → App α} (hp : l.pending = [])
    (hlost : ∀ v w l', Ran i req (.revokeIfActive id t) 0 l l' u v w →
      w.shared.state = v.shared.state → (∀ x ∈ v.tokens, x.id = id → x.revokedAt ≠ none) →
      l' = ((l.touch v.trace.length).amendToken id fun x =>
        if x.revokedAt = none then { x with revokedAt := some t } else x) →
      (tokenProtocol env).wp i req Q (f 0) l' w)
    (hwon : ∀ v w l' x, Ran i req (.revokeIfActive id t) 1 l l' u v w →
      w.shared.state = v.shared.state → x ∈ v.tokens → x.id = id → x.revokedAt = none →
      l'.pending = [.setRevokedAt id t] → (tokenProtocol env).wp i req Q (f 1) l' w) :
    (tokenProtocol env).wp i req Q ((App.issue (.revokeIfActive id t)).bind f) l u := by
  refine wp_op (o := .revokeIfActive id t) fun v c w l₁ hv hexec => ?_
  obtain ⟨g, hg, rfl, -⟩ := World.exec_step hexec
  have hpub : Published v w := .of_quiet hv.2.1 hg rfl rfl
  have hstate := ((exec_effect hg).grows rfl).1
  have hcases := exec_revokeIfActive hg
  rw [Session.view_of_nil hp, hp] at hcases
  cases hcases with
  | inl h =>
      obtain ⟨rfl, hrevoked, -, hl₁⟩ := h
      have hm : (Stmt.mark (.revokeIfActive id t) 0).Neutral := Nat.zero_ne_one
      exact ⟨hm.accounted, hpub, fun hran => hlost v w l₁ hran hstate hrevoked hl₁⟩
  | inr h =>
      obtain ⟨rfl, ⟨x, hx, hid, hlive⟩, hw, hpend⟩ := h
      refine ⟨⟨fun id' hm => ?_, fun id' hm e he hme => ?_, fun _ hm => (nomatch hm), ?_⟩, hpub,
        fun hran => hwon v w l₁ x hran hstate hx hid hlive hpend⟩
      · obtain rfl : id = id' := by
          cases hm with
          | inl hm => exact (Mark.guard.inj hm).1
          | inr hm => cases hm
        exact ⟨lock_of_write hw (List.mem_singleton_self _), hasKey_token.mpr ⟨x, hx, hid⟩⟩
      · -- an earlier winner has published its revocation or still holds the lock
        obtain rfl : id = id' := (Mark.guard.inj hm).1
        cases hv.2.1.revokes e he id (.inl hme) with
        | inl hrev =>
            obtain ⟨x', hx', hid', hrev⟩ := hrev
            obtain rfl := hv.2.1.families.row_unique hx hx' (hid.trans hid'.symm)
            exact absurd hlive hrev
        | inr hlock =>
            have hfree := (Store.write_eq_some.mp hw).1 (tokenKey id) (List.mem_singleton_self _)
            simpa [Store.Committed.Free, hlock.1] using hfree
      · intro e _ _ hme row hrow
        cases hme.symm.trans hrow

/-- `UPDATE ... WHERE id = :id` of the flush, as the first write of a transaction. -/
theorem wp_updateRevokedAt {id : Uuid} {t : Time} {f : Nat → App α} (hp : l.pending = [])
    (hx : u.shared.state.hasKey (tokenKey id))
    (h : ∀ v w l' x, Ran i req (.updateRevokedAt id t) 1 l l' u v w →
      w.shared.state = v.shared.state → x ∈ v.tokens → x.id = id →
      l'.pending = [.setRevokedAt id t] → (tokenProtocol env).wp i req Q (f 1) l' w) :
    (tokenProtocol env).wp i req Q ((App.issue (.updateRevokedAt id t)).bind f) l u := by
  refine wp_op (o := .updateRevokedAt id t) fun v c w l₁ hv hexec => ?_
  obtain ⟨g, hg, rfl, -⟩ := World.exec_step hexec
  have hkey := hv.hasKey (LockKey.not_link (by decide)) hx
  obtain ⟨x, hx, hid⟩ := hasKey_token.mp hkey
  have hres := exec_updateRevokedAt (by rw [Session.view_of_nil hp]; exact ⟨x, hx, hid⟩) hg
  obtain ⟨rfl, hw, hpend⟩ := hres
  rw [hp] at hpend
  refine ⟨⟨fun id' hm => ?_, fun id' hm => (by cases hm), fun _ hm => (by cases hm), ?_⟩,
    .of_quiet hv.2.1 hg rfl rfl,
    fun hran => h v w l₁ x hran ((exec_effect hg).grows rfl).1 hx hid hpend⟩
  · obtain rfl : id = id' := by
      cases hm with
      | inl hm => cases hm
      | inr hm => exact (Mark.flush.inj hm).1
    exact ⟨lock_of_write hw (List.mem_singleton_self _), hkey⟩
  · intro e _ _ hme row hrow
    cases hme.symm.trans hrow

/-- `UPDATE ... SET replaced_by`, of a row and a child that the session sees. -/
theorem wp_updateReplacedBy {id child : Uuid} {f : Option Nat → App α}
    (hid : ∀ v, (tokenProtocol env).Later i l u v → (l.view v.shared).hasKey (tokenKey id))
    (hchild : ∀ v, (tokenProtocol env).Later i l u v → (l.view v.shared).hasKey (tokenKey child))
    (h : ∀ v w l', Ran i req (.updateReplacedBy id child) (some 1) l l' u v w →
      w.shared.state = v.shared.state → l'.pending = l.pending ++ [.setReplacedBy id child] →
      (tokenProtocol env).wp i req Q (f (some 1)) l' w) :
    (tokenProtocol env).wp i req Q ((App.issue (.updateReplacedBy id child)).bind f) l u := by
  refine wp_quiet (o := .updateReplacedBy id child) rfl (fun _ => trivial)
    fun v r w l' hran hstate => ?_
  obtain ⟨g, hg, -⟩ := hran.result
  obtain ⟨rfl, hp⟩ := exec_updateReplacedBy (hasKey_token.mp (hid v hran.later))
    (hchild v hran.later) hg
  exact h v w l' hran hstate hp

/-- An INSERT of a token that was drawn and dated just before, by a thread that has
inserted none. -/
theorem wp_insertToken {userId : Uuid} {hash : String} {expiresAt : Time} {f : RefreshToken → App α}
    (huser : u.shared.state.hasKey (.primary .users userId))
    (hdrawn : ∀ id, Drawn u i ⟨id, userId, hash, expiresAt, none, none⟩)
    (honce : ∀ e ∈ u.own i, ∀ y, e.mark ≠ .issued y)
    (h : ∀ v w l' id, Ran i req (.insert .refreshTokens
        (RefreshTokenRepository.draft userId hash expiresAt))
        (some ⟨id, userId, hash, expiresAt, none, none⟩) l l' u v w →
      w.shared.state = v.shared.state →
      l'.pending = l.pending ++ [.insert .refreshTokens ⟨id, userId, hash, expiresAt, none, none⟩] →
      (tokenProtocol env).wp i req Q (f ⟨id, userId, hash, expiresAt, none, none⟩) l' w) :
    (tokenProtocol env).wp i req Q ((App.insert .refreshTokens
      (RefreshTokenRepository.draft userId hash expiresAt)).bind f) l u := by
  refine wp_insert (fun _ _ => rfl) (fun id now k hk => ?_) (fun v w hown hv => ?_)
    fun v w l' hran hstate hl' => h v w l' _ hran hstate (hl' ▸ rfl)
  · rw [List.mem_singleton.mp hk]
    exact huser
  · refine ⟨fun id hm => ?_, fun id hm => (nomatch hm), fun y hm => ?_, ?_⟩
    · cases hm with
      | inl hm => cases hm
      | inr hm => cases hm
    · obtain rfl := Mark.issued.inj hm
      refine ⟨(hdrawn _).grow ((hv.own).trans (List.append_nil _).symm), fun e he y' hm' hpid => ?_⟩
      exact honce e (hv.own ▸ World.mem_own.mpr ⟨he, hpid⟩) y' hm'
    · intro e _ _ hme row hrow
      cases hme.symm.trans hrow

/-- The end of a transaction that changed some tokens and inserted others. -/
theorem Published.of_map {F : RefreshToken → RefreshToken} {xs : List RefreshToken}
    (hv : TokenInv v) (hrows : w.tokens = v.tokens.map F ++ xs)
    (hlocks : w.shared.locks = v.shared.unlock i) (hfam : Families w.tokens)
    (hev : Evolves v.tokens w.tokens) (hF : ∀ x ∈ v.tokens, x.Evolves (F x))
    (hmine : ∀ id, v.shared.locks (tokenKey id) = some i → v.shared.state.hasKey (tokenKey id) →
      Revoked w.tokens id)
    (hcaused : ∀ x ∈ v.tokens, x.revokedAt = none → (F x).revokedAt ≠ none →
      ∃ e ∈ v.trace, e.mark.Revokes x.id)
    (hlinked : ∀ x ∈ v.tokens, ∀ c, x.replacedBy = none → (F x).replacedBy = some c →
      LinkedBy v x c) (hxs : ∀ x ∈ xs, x.revokedAt = none ∧ ∃ e ∈ v.trace, e.mark = .issued x ∧
      ((∃ p ∈ w.tokens, p.replacedBy = some x.id) ∨ e.request.isLogin)) : Published v w := by
  have hcases : ∀ y ∈ w.tokens, (∃ x ∈ v.tokens, F x = y) ∨ y ∈ xs := by
    intro y hy
    rw [hrows, List.mem_append, List.mem_map] at hy
    exact hy
  have hmem : ∀ x ∈ v.tokens, F x ∈ w.tokens := by
    intro x hx
    rw [hrows]
    exact List.mem_append_left _ (List.mem_map_of_mem hx)
  refine ⟨hfam, hev, fun id j hj hkey => ?_, fun y hy hrev => ?_, fun y hy => ?_, fun y hy => ?_,
    fun y hy c hc => ?_⟩
  · by_cases hij : j = i
    · subst hij
      exact .inl (hmine id hj hkey)
    · rw [hlocks]
      exact .inr (Store.unlock_eq_some.mpr ⟨hj, hij⟩)
  · cases hcases y hy with
    | inl hy =>
        obtain ⟨x, hx, rfl⟩ := hy
        rw [(hF x hx).id]
        by_cases hlive : x.revokedAt = none
        · exact hcaused x hx hlive hrev
        · exact hv.caused x hx hlive
    | inr hy => exact absurd (hxs y hy).1 hrev
  · cases hcases y hy with
    | inl hy =>
        obtain ⟨x, hx, rfl⟩ := hy
        obtain ⟨e, he, x₀, hm, hev⟩ := hv.issued x hx
        exact ⟨e, he, x₀, hm, hev.trans (hF x hx)⟩
    | inr hy =>
        obtain ⟨-, e, he, hm, -⟩ := hxs y hy
        exact ⟨e, he, y, hm, .refl y⟩
  · cases hcases y hy with
    | inl hy =>
        obtain ⟨x, hx, rfl⟩ := hy
        rw [(hF x hx).id]
        cases hv.rooted x hx with
        | inl hpred =>
            obtain ⟨p, hp, hn⟩ := hpred
            have hrev : p.revokedAt ≠ none :=
              hv.families.superseded p hp fun h => by simp [h] at hn
            exact .inl ⟨F p, hmem p hp, ((hF p hp).frozen hrev).trans hn⟩
        | inr hlogin => exact .inr hlogin
    | inr hy =>
        obtain ⟨-, e, he, hm, hroot⟩ := hxs y hy
        cases hroot with
        | inl hpred => exact .inl hpred
        | inr hlogin => exact .inr ⟨e, he, hlogin, y, hm, rfl⟩
  · cases hcases y hy with
    | inr hy' => exact absurd (hxs y hy').1 (hfam.superseded y hy (by simp [hc]))
    | inl hy =>
        obtain ⟨x, hx, rfl⟩ := hy
        have hlink : LinkedBy v x c := by
          cases hn : x.replacedBy with
          | none => exact hlinked x hx c hn hc
          | some d =>
              rw [(hF x hx).frozen (hv.families.superseded x hx (by simp [hn])), hn] at hc
              exact Option.some.inj hc ▸ hv.linked x hx d hn
        rw [LinkedBy, (hF x hx).tokenHash]
        exact hlink

/-- The keys that a session holds are those of its pending writes. -/
theorem Lib.Protocol.Later.held (h : (tokenProtocol env).Later i l u v) {k : LockKey}
    (hk : v.shared.locks k = some i) : ∃ p ∈ l.pending, k ∈ p.keys :=
  h.2.2.holds.pending k hk

theorem Lib.Protocol.Later.mem_trace (h : (tokenProtocol env).Later i l u v)
    {e : Entry (machine env) Request} (he : e ∈ u.own i) : e ∈ v.trace := by
  rw [← h.1.1.own] at he
  exact (World.mem_own.mp he).1

/-- Publish the revocation of a token. -/
theorem wp_commit_revoke {id : Uuid} {t : Time} {x : RefreshToken} {f : Unit → App α}
    (hp : l.pending = [.setRevokedAt id t]) (hx : x ∈ u.tokens) (hid : x.id = id)
    (he : ∃ e ∈ u.own i, e.mark.Revokes id)
    (h : ∀ v w, Ran i req .commit () l { l with began := none, pending := [] } u v w →
      x ∈ v.tokens → w.tokens = v.tokens.map (·.revoke id t) →
      (tokenProtocol env).wp i req Q (f ()) { l with began := none, pending := [] } w) :
    (tokenProtocol env).wp i req Q (App.commit.bind f) l u := by
  have hkey : tokenKey x.id ∈ (Write.setRevokedAt id t).keys := hid ▸ List.mem_singleton_self _
  have hpend : .setRevokedAt id t ∈ l.pending := hp ▸ List.mem_singleton_self _
  have hrows : ∀ {v w : History env Request}, w.shared = v.shared.commit i l.pending →
      w.tokens = v.tokens.map (·.revoke id t) := by
    intro v w hw
    rw [World.tokens, hw, hp]
    rfl
  refine wp_commit (fun v w hv hw => ?_) fun v w hran hw => ?_
  · have hxv : x ∈ v.tokens := hv.row hpend hkey hx
    have hw' := hrows hw
    refine .of_map hv.2.1 (hw'.trans (List.append_nil _).symm)
      (congrArg Store.Committed.locks hw) ?_ ?_ (fun y _ => revoke_evolves y id t) ?_ ?_
      (fun y _ c hn hc => ?_) (by simp)
    · exact hw' ▸ hv.2.1.families.revoke id t
    · exact hw' ▸ evolves_revoke v.tokens id t
    · intro id' hlock _
      obtain ⟨p, hp', hk⟩ := hv.held hlock
      rw [hp, List.mem_singleton] at hp'
      subst hp'
      obtain rfl : id' = id := (LockKey.primary.inj (List.mem_singleton.mp hk)).2
      rw [hw']
      exact ⟨_, List.mem_map_of_mem hxv, (revoke_same x id' t).1.trans hid,
        by simp [RefreshToken.revoke, hid]⟩
    · intro y hy hlive hrev
      have hyid : y.id = id := by
        by_contra hne
        simp [RefreshToken.revoke, hne, hlive] at hrev
      obtain ⟨e, he, hm⟩ := he
      exact ⟨e, hv.mem_trace he, hyid ▸ hm⟩
    · rw [(revoke_same y id t).2.2, hn] at hc
      cases hc
  · exact h v w hran (hran.later.row hpend hkey hx) (hrows hw)

/-- Publish a new token of a login. -/
theorem wp_commit_create {x : RefreshToken} {f : Unit → App α}
    (hp : l.pending = [.insert .refreshTokens x]) (hlive : x.revokedAt = none)
    (hnext : x.replacedBy = none) (he : ∃ e ∈ u.own i, e.mark = .issued x ∧ e.request.isLogin)
    (h : ∀ v w, Ran i req .commit () l { l with began := none, pending := [] } u v w →
      w.tokens = v.tokens ++ [x] →
      (tokenProtocol env).wp i req Q (f ()) { l with began := none, pending := [] } w) :
    (tokenProtocol env).wp i req Q (App.commit.bind f) l u := by
  have hrows : ∀ {v w : History env Request}, w.shared = v.shared.commit i l.pending →
      w.tokens = v.tokens ++ [x] := by
    intro v w hw
    rw [World.tokens, hw, hp]
    rfl
  refine wp_commit (fun v w hv hw => ?_) fun v w hran hw => h v w hran (hrows hw)
  have hw' := hrows hw
  have hok : (Write.insert .refreshTokens x).Ok v.shared.state := by
    have hvalid := hv.2.2.valid
    rw [hp] at hvalid
    exact hvalid.1
  have hfresh : ¬ v.shared.state.hasKey (tokenKey x.id) := hok.adds _ (List.mem_singleton_self _)
  have hne : ∀ y ∈ v.tokens, y.id ≠ x.id :=
    fun y hy hid => hfresh (hasKey_token.mpr ⟨y, hy, hid⟩)
  refine .of_map hv.2.1 (F := fun y => y) (hw'.trans (by rw [List.map_id']))
    (congrArg Store.Committed.locks hw) ?_ ?_ (fun y _ => .refl y) ?_
    (fun y _ hlive hrev => absurd hlive hrev) (fun y _ c hn hc => by simp [hn] at hc) ?_
  · exact hw' ▸ hv.2.1.families.append hne hnext
  · exact hw' ▸ evolves_append v.tokens hnext
  · intro id hlock hkey
    obtain ⟨p, hp', hk⟩ := hv.held hlock
    rw [hp, List.mem_singleton] at hp'
    subst hp'
    exact absurd hkey (List.mem_singleton.mp hk ▸ hfresh)
  · intro y hy
    obtain rfl := List.mem_singleton.mp hy
    obtain ⟨e, he, hm, hlogin⟩ := he
    exact ⟨hlive, e, hv.mem_trace he, hm, .inr hlogin⟩

/-- Publish a rotation: the old token revoked and superseded, and the new one. -/
theorem wp_commit_rotate {t : Time} {p x : RefreshToken} {f : Unit → App α}
    (hp : l.pending =
      [.setRevokedAt p.id t, .insert .refreshTokens x, .setReplacedBy p.id x.id])
    (hpu : p ∈ u.tokens) (hplive : p.revokedAt = none) (howner : x.userId = p.userId)
    (hlive : x.revokedAt = none) (hnext : x.replacedBy = none)
    (hguard : ∃ e ∈ u.own i, e.mark.Revokes p.id) (he : ∃ e ∈ u.own i, e.mark = .issued x ∧
      ∃ y : String, e.request = .refresh y ∧ p.tokenHash = env.sha256 y)
    (h : ∀ v w, Ran i req .commit () l { l with began := none, pending := [] } u v w →
      p ∈ v.tokens → w.tokens = v.tokens.map (·.supersede p.id t x.id) ++ [x] →
      (tokenProtocol env).wp i req Q (f ()) { l with began := none, pending := [] } w) :
    (tokenProtocol env).wp i req Q (App.commit.bind f) l u := by
  have hfirst : .setRevokedAt p.id t ∈ l.pending := hp ▸ List.mem_cons_self
  have hkey : tokenKey p.id ∈ (Write.setRevokedAt p.id t).keys := List.mem_singleton_self _
  have hfresh : ∀ {v}, (tokenProtocol env).Later i l u v → ∀ y ∈ v.tokens, y.id ≠ x.id := by
    intro v hv y hy hid
    have hvalid := hv.2.2.valid
    rw [hp] at hvalid
    refine hvalid.2.1.adds (tokenKey x.id) (List.mem_singleton_self _) ?_
    refine Write.hasKey_apply _ (LockKey.not_link (by decide)) (hasKey_token.mpr ⟨y, hy, hid⟩)
  have hrows : ∀ {v w : History env Request}, (tokenProtocol env).Later i l u v →
      w.shared = v.shared.commit i l.pending →
      w.tokens = v.tokens.map (·.supersede p.id t x.id) ++ [x] := by
    intro v w hv hw
    have hne : x.id ≠ p.id := (hfresh hv p (hv.row hfirst hkey hpu)).symm
    rw [World.tokens, hw, hp]
    show ((v.tokens.map _) ++ [x]).map _ = _
    rw [List.map_append, List.map_map, List.map_singleton, if_neg hne]
    congr 1
    refine List.map_congr_left fun y _ => ?_
    by_cases hy : y.id = p.id
    · simp [RefreshToken.supersede, hy]
    · simp [RefreshToken.supersede, hy]
  refine wp_commit (fun v w hv hw => ?_) fun v w hran hw =>
    h v w hran (hran.later.row hfirst hkey hpu) (hrows hran.later hw)
  have hw' := hrows hv hw
  have hpv : p ∈ v.tokens := hv.row hfirst hkey hpu
  have hunique : ∀ y ∈ v.tokens, y.id = p.id → y.revokedAt = none := fun y hy hid =>
    hv.2.1.families.row_unique hy hpv hid ▸ hplive
  have hnew : p.supersede p.id t x.id ∈ w.tokens := by
    rw [hw']
    exact List.mem_append_left _ (List.mem_map_of_mem hpv)
  refine .of_map hv.2.1 hw' (congrArg Store.Committed.locks hw) ?_ ?_
    (fun y hy => supersede_evolves (hunique y hy)) ?_ ?_ (fun y hy c hn hc => ?_) ?_
  · exact hw' ▸ hv.2.1.families.rotate hpv (hfresh hv) hnext howner t
  · exact hw' ▸ hv.2.1.families.evolves_rotate hpv hplive (hfresh hv) hnext
  · intro id hlock hkey'
    obtain ⟨q, hq, hk⟩ := hv.held hlock
    have hid : id = p.id ∨ id = x.id := by
      rw [hp] at hq
      simp only [List.mem_cons, List.not_mem_nil, or_false] at hq
      rcases hq with rfl | rfl | rfl
      · exact .inl (LockKey.primary.inj (List.mem_singleton.mp hk)).2
      · exact .inr (LockKey.primary.inj (List.mem_singleton.mp hk)).2
      · exact .inl (LockKey.primary.inj (List.mem_singleton.mp hk)).2
    cases hid with
    | inl hid =>
        exact ⟨_, hnew, by simp [RefreshToken.supersede, hid], by simp [RefreshToken.supersede]⟩
    | inr hid =>
        obtain ⟨y, hy, hyid⟩ := hasKey_token.mp hkey'
        exact absurd (hyid.trans hid) (hfresh hv y hy)
  · intro y hy hylive hrev
    have hyid : y.id = p.id := by
      by_contra hne
      rw [supersede_other hne] at hrev
      exact hrev hylive
    obtain ⟨e, he, hm⟩ := hguard
    exact ⟨e, hv.mem_trace he, hyid ▸ hm⟩
  · have hyid : y.id = p.id := by
      by_contra hne
      rw [supersede_other hne, hn] at hc
      cases hc
    obtain rfl := hv.2.1.families.row_unique hy hpv hyid
    obtain ⟨e, he, hm, z, hreq, hhash⟩ := he
    refine ⟨e, hv.mem_trace he, z, x, hreq, hhash, hm, ?_⟩
    simpa [RefreshToken.supersede] using hc
  · intro y hy
    obtain rfl := List.mem_singleton.mp hy
    obtain ⟨e, he, hm, -⟩ := he
    exact ⟨hlive, e, hv.mem_trace he, hm, .inl ⟨_, hnew, by simp [RefreshToken.supersede]⟩⟩

end SecureIam
