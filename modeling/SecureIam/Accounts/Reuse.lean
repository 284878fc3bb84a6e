import SecureIam.Accounts.Continuity

/-!
The replay of a rotated token: how far the walk sees, and what it leaves of the family.
-/
namespace SecureIam
open Lib AuthService RefreshTokenRepository
variable {env : Environment} {t t' : Tables} {rows : List RefreshToken} {p p' p'' : Calls env}
    {x : String}
  {T D R L c : RefreshToken} {id : Uuid} {n k : Nat} {e : Entry (machine env) Request}

namespace Tables

theorem token?_of_mem (h : Families t.refreshTokens) (hR : R ∈ t.refreshTokens) :
    t.token? R.id = some R := by
  have hsome : (t.token? R.id).isSome := List.find?_isSome.mpr ⟨R, hR, decide_eq_true rfl⟩
  obtain ⟨r, hfound⟩ := Option.isSome_iff_exists.mp hsome
  obtain ⟨hr, hid⟩ := token?_eq_some hfound
  rw [hfound, h.row_unique hr hR hid]

/-- The walk finds the last token of the family if it lies within its rounds. -/
theorem leaf_of_links (h : Families t.refreshTokens) (hD : D ∈ t.refreshTokens)
    (hlast : D.replacedBy = none) (hlinks : rotation.Links t.refreshTokens k id D.id) {steps : Nat}
    (hk : k < steps) :
    t.leaf steps id = some D := by
  induction steps generalizing k id with
  | zero => cases hk
  | succ steps ih =>
      cases k with
      | zero =>
          obtain rfl : id = D.id := hlinks
          simp only [leaf, token?_of_mem h hD, hlast]
      | succ k =>
          obtain ⟨next, hlink, hrest⟩ := Chaining.links_succ_left.mp hlinks
          obtain ⟨r, hr, hid, hnext⟩ := hlink
          have hid : r.id = id := hid
          have hnext : r.replacedBy = some next := hnext
          subst hid
          simp only [leaf, token?_of_mem h hr, hnext]
          exact ih hrest (Nat.lt_of_succ_lt_succ hk)

end Tables

/-- The keyword arguments that an event was recorded with. -/
def AuditLog.reported (row : AuditLog) : AuditRecord :=
  ⟨row.action, row.actorUserId, row.targetType, row.targetId, row.organizationId, row.eventMetadata⟩

/-- The log has grown by these events, in this order. -/
def Tables.Logged (t t' : Tables) (events : List AuditRecord) : Prop :=
  ∃ logs, t'.auditLogs = t.auditLogs ++ logs ∧ logs.map AuditLog.reported = events

/-- The last token of the family decides whether all of it is revoked. -/
theorem Families.familyRevoked_iff (h : Families rows) (hD : D ∈ rows) (hlast : D.replacedBy = none)
    (hlinks : rotation.Links rows n T.id D.id) : FamilyRevoked rows T.id ↔ D.revokedAt ≠ none := by
  constructor
  · exact fun hrevoked => hrevoked D hD hlinks.joined
  · exact fun hrevoked => h.familyRevoked_of_dead hlinks ⟨D, hD, rfl, hrevoked, hlast⟩

/-- A token that is not revoked is the last one of its family. -/
theorem Families.last_of_live (h : Families rows) (hD : D ∈ rows) (hlast : D.replacedBy = none)
    (hlinks : rotation.Links rows n T.id D.id) (hL : L ∈ rows) (hlive : L.revokedAt = none)
    (hlinks' : rotation.Links rows k T.id L.id) : k = n ∧ L = D := by
  have hnone : L.replacedBy = none := by
    by_contra hne
    exact h.superseded L hL hne hlive
  obtain ⟨hid, hk⟩ := h.linear.end_unique hlinks' ⟨L, hL, rfl, hnone⟩ hlinks ⟨D, hD, rfl, hlast⟩
  exact ⟨hk, h.row_unique hL hD hid⟩

/-- The path from a token begins with its successor. -/
theorem Families.links_next (h : Families rows) (hT : T ∈ rows) {next : Uuid}
    (hnext : T.replacedBy = some next) (hD : D ∈ rows) (hlast : D.replacedBy = none)
    (hlinks : rotation.Links rows n T.id D.id) :
    ∃ k, n = k + 1 ∧ rotation.Links rows k next D.id := by
  cases n with
  | zero =>
      obtain rfl := h.row_unique hT hD hlinks
      cases hlast.symm.trans hnext
  | succ k =>
      obtain ⟨a, hlink, hrest⟩ := Chaining.links_succ_left.mp hlinks
      obtain rfl := h.linear.link_functional hlink ⟨T, hT, rfl, hnext⟩
      exact ⟨k, rfl, hrest⟩

/-- What the refresh of a token with a successor does; `D` is the last token of the family,
`n` rotations later. -/
inductive Replay (t t' : Tables) (T D : RefreshToken) (n : Nat) : Prop
  | missed (hfar : D.revokedAt = none → maxFamilyWalkSteps < n)
      (htokens : t'.refreshTokens = t.refreshTokens) (hlogged : t.Logged t' [reuseDetected T true])
  | revoked (hlive : D.revokedAt = none) (hnear : n ≤ maxFamilyWalkSteps) (now : Time)
      (htokens : t'.refreshTokens = t.refreshTokens.map (·.revoke D.id now))
      (hlogged : t.Logged t' [reuseDetected T false, familyRevoked T D])

theorem Renewal.replay {out : Except Error TokenResponse} {m m' : Nat} {versions : List Tables}
    (h : Renewal env t x m m' out versions) (hfam : Families t.refreshTokens)
    (hT : T ∈ t.refreshTokens) (hhash : T.tokenHash = env.sha256 x)
    (honly : ∀ r ∈ t.refreshTokens, r.tokenHash = env.sha256 x → r = T)
    (hrevoked : T.revokedAt ≠ none) (hnext : T.replacedBy ≠ none) (hD : D ∈ t.refreshTokens)
    (hlast : D.replacedBy = none) (hlinks : rotation.Links t.refreshTokens n T.id D.id)
    (hhead : versions.head? = some t') : out = .error invalidRefreshToken ∧ Replay t t' T D n := by
  cases h with
  | ambiguous hT₁ hT₂ hne hash hash' =>
      exact absurd ((honly _ hT₁ hash).trans (honly _ hT₂ hash').symm) hne
  | unknown hnone => exact absurd hhash (hnone T hT)
  | dead hT' _ hlast' => exact absurd (hT'.only T hT hhash ▸ hlast') hnext
  | expired hT' hlive | ownerless hT' hlive | rotated hT' hlive =>
      exact absurd (hT'.only T hT hhash ▸ hlive) hrevoked
  | @reused T' next hT' _ hnext' hdead id now =>
      cases hhead
      obtain rfl := hT'.only T hT hhash
      refine ⟨rfl, .missed (fun hlive => ?_) rfl ⟨_, rfl, rfl⟩⟩
      obtain ⟨k, rfl, hrest⟩ := hfam.links_next hT hnext' hD hlast hlinks
      by_contra hnear
      have hk : k < maxFamilyWalkSteps := not_lt.mp hnear
      exact hdead D (Tables.leaf_of_links hfam hD hlast hrest hk) hlive
  | @familyRevoked T' L next hT' _ hnext' hleaf hlive j hj t₁ t₂ ht₁ id id' now now' ht₂ =>
      cases hhead
      obtain rfl := hT'.only T hT hhash
      subst ht₂ ht₁
      obtain ⟨k, hk, hrest⟩ := leaf_links hleaf
      have hlinks' : rotation.Links t.refreshTokens (k + 1) T.id L.id :=
        Chaining.links_succ_left.mpr ⟨next, ⟨T, hT, rfl, hnext'⟩, hrest⟩
      obtain ⟨rfl, rfl⟩ := hfam.last_of_live hD hlast hlinks (Tables.leaf_eq_some hleaf).1 hlive
        hlinks'
      exact ⟨rfl, .revoked hlive hk (env.clock j) rfl ⟨_, List.append_assoc _ _ _, rfl⟩⟩

theorem Replay.row_back (h : Replay t t' T D n) (hc : c ∈ t'.refreshTokens) :
    ∃ c₀ ∈ t.refreshTokens, c₀.id = c.id := by
  cases h with
  | missed _ htokens _ => exact ⟨c, htokens ▸ hc, rfl⟩
  | revoked _ _ now htokens _ =>
      rw [htokens] at hc
      obtain ⟨c₀, hc₀, rfl⟩ := List.mem_map.mp hc
      exact ⟨c₀, hc₀, (revoke_same c₀ D.id now).1.symm⟩

/-- The id of an inserted token is drawn at the step of the INSERT. -/
theorem issued_id {i : Nat} {o : Stmt} {r : o.Res} {g g' : Database} {l l' : Session}
    (hm : o.mark r = .issued c) (hexec : exec env n i o g l = some (r, g', l')) :
    c.id = env.uuid n := by
  cases o with
  | insert τ draft =>
      cases τ with
      | refreshTokens =>
          cases exec_insert hexec with
          | inl hnone => simp [Stmt.mark, hnone] at hm
          | inr hsome =>
              simp only [Stmt.mark, hsome, Mark.issued.injEq] at hm
              exact hm ▸ draft.drawn (env.uuid n) (l.now env n) _ List.mem_cons_self
      | auditLogs => cases r <;> cases hm
      | _ => cases hm
  | _ => cases hm

namespace Calls.Reachable
variable (h : p.Reachable)
include h

theorem entry_issued (he : e ∈ p.world.trace) (hm : e.mark = .issued c) :
    c.id = env.uuid e.step := by
  obtain ⟨q, q', -, hs, -, -, -, htrace⟩ := h.entry he
  obtain ⟨hstep, l, l', hexec⟩ := hs.executed htrace
  obtain ⟨g, hg, -⟩ := World.exec_step hexec
  exact hstep ▸ issued_id hm hg

/-- A row is inserted once. -/
theorem issued_once {e' : Entry (machine env) Request} {c' : RefreshToken} (he : e ∈ p.world.trace)
    (he' : e' ∈ p.world.trace) (hm : e.mark = .issued c) (hm' : e'.mark = .issued c')
    (hid : c.id = c'.id) :
    e = e' := by
  refine h.inv.sound.placed.step_inj he he' (env.uuid_injective _ _ ?_)
  rw [← h.entry_issued he hm, ← h.entry_issued he' hm', hid]

/-- Once the last token of a family is revoked, the refreshes of the family that return
tokens are those that had committed their rotation by then. -/
theorem accepted_before (hd : env.Distinct) (hdead : Dead p.world.tokens id)
    (hr : Reaches (serve env) p p'') (hR : R ∈ p''.world.tokens)
    (hj : rotation.Joined p''.world.tokens id R.id) {i : Nat} (hi : p''.succeeded R.tokenHash i) :
    i < p.threads.length ∧ (∃ e ∈ p.world.own i, e.mark.isIssued) ∧
      ∃ c ∈ p.world.tokens, R.replacedBy = some c.id := by
  have h'' := h.reaches hr
  have hfam := h''.inv.families
  have hev := h.evolves hr
  obtain ⟨D, hD, rfl, hrevoked, hlast⟩ := hdead
  obtain ⟨D', hD', hevD⟩ := hev.kept D hD
  have hlast' : D'.replacedBy = none := (hevD.frozen hrevoked).trans hlast
  obtain ⟨c, hnext, -, e, he, hm⟩ := h''.rotated hd hR hi
  have hlinks : ∃ n, rotation.Links p''.world.tokens n R.id D'.id := by
    cases hfam.linear.joined_iff.mp hj with
    | inr hlinks => exact hevD.id.symm ▸ hlinks
    | inl hlinks =>
        obtain ⟨n, hlinks⟩ := hlinks
        obtain ⟨-, hid⟩ := hfam.linear.links_end hlinks ⟨D', hD', hevD.id, hlast'⟩
        exact ⟨0, hid.trans hevD.id.symm⟩
  obtain ⟨n, hlinks⟩ := hlinks
  obtain ⟨k, -, hrest⟩ := hfam.links_next hR hnext hD' hlast' hlinks
  obtain ⟨y, hy, hid⟩ := hfam.linear.closed R hR c.id hnext
  have hid : y.id = c.id := hid
  rw [← hid, hevD.id] at hrest
  obtain ⟨y₀, hy₀, hevy, -⟩ := hev.row_back hfam hy hrest hD
  obtain ⟨e₀, he₀, c₀, hm₀, hev₀⟩ := h.inv.issued y₀ hy₀
  obtain ⟨new, htrace⟩ := hr.trace
  have hmem := World.mem_own.mp he
  have hmem₀ : e₀ ∈ p''.world.trace := htrace ▸ List.mem_append_left _ he₀
  obtain rfl := h''.issued_once hmem₀ hmem.1 hm₀ hm (hev₀.id.symm.trans (hevy.id.symm.trans hid))
  refine ⟨hmem.2 ▸ h.sound.owner e₀ he₀, ⟨e₀, World.mem_own.mpr ⟨he₀, hmem.2⟩, ?_⟩, y₀, hy₀, ?_⟩
  · simp [hm, Mark.isIssued]
  · rw [hnext, ← hevy.id, hid]

end Calls.Reachable

/-- What a replay of `T` is to do: revoke the family of `T`, so that no refresh of it is
accepted later, and report truly what it found. -/
structure ReuseHandled (p p' : Calls env) (T : RefreshToken) : Prop where
  revoked : FamilyRevoked p'.world.tokens T.id
  refused : ∀ p'' : Calls env, Reaches (serve env) p' p'' → ∀ R ∈ p''.world.tokens,
    rotation.Joined p''.world.tokens T.id R.id → ∀ i, p''.succeeded R.tokenHash i →
      i < p.threads.length ∧ ∃ c ∈ p.world.tokens, R.replacedBy = some c.id
  reported : ∃ (b : Bool) (events : List AuditRecord),
    p.tables.Logged p'.tables (reuseDetected T b :: events) ∧
    (b = true ↔ FamilyRevoked p.world.tokens T.id) ∧
      (events = [] ∨ ∃ L ∈ p.world.tokens, events = [familyRevoked T L]) ∧
      (events ≠ [] ↔ ¬ FamilyRevoked p.world.tokens T.id)

/-- The replay that has revoked the family, seen from later. -/
theorem Replay.refused (hp : p.Reachable) (hd : env.Distinct) (h : Replay p.tables p'.tables T D n)
    (hs : Served (serve env) p (.refresh x) (.error invalidRefreshToken) p')
    (hdead : Dead p'.world.tokens D.id) (hlinks : rotation.Links p'.world.tokens n T.id D.id)
    (hr : Reaches (serve env) p' p'') (hR : R ∈ p''.world.tokens)
    (hj : rotation.Joined p''.world.tokens T.id R.id) {i : Nat} (hi : p''.succeeded R.tokenHash i) :
    i < p.threads.length ∧ ∃ c ∈ p.world.tokens, R.replacedBy = some c.id := by
  have hp' := hp.reaches hs.reaches
  have hfam := (hp'.reaches hr).inv.families
  have hjoined : rotation.Joined p''.world.tokens D.id R.id :=
    hfam.linear.joined_trans ((hp'.evolves hr).links_mono hp'.inv.families hlinks).joined.symm hj
  obtain ⟨hlt, ⟨e, he, hissued⟩, c', hc', hnext⟩ := hp'.accepted_before hd hdead hr hR hjoined hi
  obtain ⟨c, hc, hid⟩ := h.row_back hc'
  refine ⟨?_, c, hc, hid.symm ▸ hnext⟩
  obtain ⟨l, w, hrun, rfl⟩ := hs.ran
  by_contra hge
  obtain rfl : i = p.threads.length := by
    simp only [List.length_append, List.length_singleton] at hlt
    omega
  have hrejection : Rejection env x p.threads.length invalidRefreshToken w := by
    refine hp'.outcome ?_ (show Thread.outcome
      ⟨.refresh x, l, .ofExcept (.error invalidRefreshToken)⟩ = _ from rfl)
    simp
  cases hm : e.mark with
  | issued row => exact hrejection.issued e he row hm
  | _ => simp [hm, Mark.isIssued] at hissued

/-- A replay is handled if and only if the unrevoked token of its family, if there is one,
is within the rounds of the walk. -/
theorem reuse_handled_iff (hp : p.Reachable) (hd : env.Distinct) (hT : T ∈ p.world.tokens)
    (hhash : T.tokenHash = env.sha256 x) (hrevoked : T.revokedAt ≠ none)
    (hnext : T.replacedBy ≠ none) {out : Except Error Response}
    (hs : Served (serve env) p (.refresh x) out p') :
    ReuseHandled p p' T ↔ ∀ L ∈ p.world.tokens, L.revokedAt = none → ∀ n,
      rotation.Links p.world.tokens n T.id L.id → n ≤ maxFamilyWalkSteps := by
  have hfam := hp.inv.families
  have hp' := hp.reaches hs.reaches
  have honly : ∀ r ∈ p.world.tokens, r.tokenHash = env.sha256 x → r = T := fun r hr hr' =>
    hp.inv.row_of_hash hd hr hT (hr'.trans hhash.symm)
  obtain ⟨n, D, hD, hlinks, hlast⟩ := hfam.exists_last hT
  obtain ⟨out', m, versions, hout, -, hrenewal, hhead⟩ := hp.sound.refreshed hs
  obtain ⟨rfl, hreplay⟩ := hrenewal.replay hfam hT hhash honly hrevoked hnext hD hlast hlinks hhead
  obtain rfl : out = .error invalidRefreshToken := hout
  have hlinks' := (hp.evolves hs.reaches).links_mono hfam hlinks
  have hbefore := hfam.familyRevoked_iff hD hlast hlinks
  have hfar : (∀ L ∈ p.world.tokens, L.revokedAt = none → ∀ n,
      rotation.Links p.world.tokens n T.id L.id → n ≤ maxFamilyWalkSteps) ↔
      (D.revokedAt = none → n ≤ maxFamilyWalkSteps) := by
    constructor
    · exact fun h hlive => h D hD hlive n hlinks
    · intro h L hL hlive k hk
      obtain ⟨rfl, rfl⟩ := hfam.last_of_live hD hlast hlinks hL hlive hk
      exact h hlive
  rw [hfar]
  have hrefused : Dead p'.world.tokens D.id → ∀ p'' : Calls env, Reaches (serve env) p' p'' →
    ∀ R ∈ p''.world.tokens,
      rotation.Joined p''.world.tokens T.id R.id → ∀ i, p''.succeeded R.tokenHash i →
      i < p.threads.length ∧ ∃ c ∈ p.world.tokens, R.replacedBy = some c.id :=
    fun hdead p'' hr R hR hj i hi => hreplay.refused hp hd hs hdead hlinks' hr hR hj hi
  cases hreplay with
  | missed hmissed htokens hlogged =>
      have htokens : p'.world.tokens = p.world.tokens := htokens
      constructor
      · intro h hlive
        have hall : FamilyRevoked p.world.tokens T.id := htokens ▸ h.revoked
        exact absurd hlive (hbefore.mp hall)
      · intro hnear
        have hdead : D.revokedAt ≠ none :=
          fun hlive => absurd (hmissed hlive) (not_lt.mpr (hnear hlive))
        have hall := hbefore.mpr hdead
        refine ⟨htokens ▸ hall, hrefused (htokens ▸ ⟨D, hD, rfl, hdead, hlast⟩), true,
          [], hlogged, ?_, .inl rfl, ?_⟩
        · simp [hall]
        · simp [hall]
  | revoked hlive hnear now htokens hlogged =>
      have htokens : p'.world.tokens = p.world.tokens.map (·.revoke D.id now) := htokens
      have hsome : ¬ FamilyRevoked p.world.tokens T.id := fun hall => hbefore.mp hall hlive
      have hdead : Dead p'.world.tokens D.id := by
        refine ⟨D.revoke D.id now, htokens ▸ List.mem_map_of_mem hD,
          (revoke_same D D.id now).1, ?_, ?_⟩
        · simp [RefreshToken.revoke]
        · exact (revoke_same D D.id now).2.2.trans hlast
      refine iff_of_true ⟨hp'.inv.families.familyRevoked_of_dead hlinks' hdead,
        hrefused hdead, false,
        [familyRevoked T D], hlogged, ?_, .inr ⟨D, hD, rfl⟩, ?_⟩ fun _ => hnear
      · simp [hsome]
      · simp [hsome]

/-- The first token is presented again: the second one is its family's last. -/
theorem reuse_handled_rotatedOnce : ∃ T ∈ rotatedOnce.world.tokens, ∃ p' : Calls plainEnvironment,
    Served (serve plainEnvironment) rotatedOnce (.refresh (plainEnvironment.token 18))
      (.error invalidRefreshToken) p' ∧ ReuseHandled rotatedOnce p' T := by
  have hreachable : rotatedOnce.Reachable := loggedIn_reachable.played _
  have hserved : ∃ p' : Calls plainEnvironment, Served (serve plainEnvironment) rotatedOnce
      (.refresh (plainEnvironment.token 18)) (.error invalidRefreshToken) p' :=
      Served.of_run (by decide +kernel)
  have hfound : ∃ T ∈ rotatedOnce.world.tokens, T.tokenHash = plainEnvironment.token 18 ∧
      T.revokedAt ≠ none ∧ T.replacedBy ≠ none := by decide +kernel
  have hrows : rotatedOnce.world.tokens.length = 2 := by decide +kernel
  obtain ⟨p', hs⟩ := hserved
  obtain ⟨T, hT, hhash, hrevoked, hnext⟩ := hfound
  refine ⟨T, hT, p', hs, (reuse_handled_iff hreachable plainEnvironment_distinct hT hhash hrevoked
    hnext hs).mpr ?_⟩
  intro L hL hlive n hlinks
  cases n with
  | zero => exact Nat.zero_le _
  | succ n =>
      have hlt := hreachable.inv.families.linear.links_lt_length hlinks
      rw [hrows] at hlt
      simp only [maxFamilyWalkSteps]
      omega

/-- Rows of which each is replaced by the next. -/
theorem links_of_isChain {r : RefreshToken} {xs : List RefreshToken}
    (h : (r :: xs).IsChain fun a b => a.replacedBy = some b.id) (hsub : ∀ y ∈ r :: xs, y ∈ rows)
    (hL : L ∈ r :: xs) :
    ∃ n, rotation.Links rows n r.id L.id := by
  induction xs generalizing r with
  | nil =>
      obtain rfl := List.mem_singleton.mp hL
      exact ⟨0, rfl⟩
  | cons y ys ih =>
      cases List.mem_cons.mp hL with
      | inl heq => exact heq ▸ ⟨0, rfl⟩
      | inr hrest =>
          obtain ⟨hnext, hchain⟩ := List.isChain_cons_cons.mp h
          obtain ⟨n, hlinks⟩ := ih hchain (fun z hz => hsub z (List.mem_cons_of_mem _ hz)) hrest
          exact ⟨n + 1, Chaining.links_succ_left.mpr
            ⟨y.id, ⟨r, hsub r List.mem_cons_self, rfl, hnext⟩, hlinks⟩⟩

/-- A login and 26 refreshes, each of the last token. -/
def longSession : List Request :=
  [.register "a" "p", .login "a" "p", .refresh (plainEnvironment.token 18)] ++
    (List.range 25).map fun n => .refresh (plainEnvironment.token (27 + 18 * n))

/-- The tables before and after a replay of the first token that misses the last. -/
def missesLast (t t' : Tables) : Bool :=
  decide ((∃ T ∈ t.refreshTokens, T.tokenHash = plainEnvironment.token 18 ∧ T.revokedAt ≠ none ∧
      T.replacedBy ≠ none ∧ T.id = ⟨40⟩) ∧
    t'.refreshTokens.head?.map (·.id) = some ⟨40⟩ ∧
    (t'.refreshTokens.IsChain fun a b => a.replacedBy = some b.id) ∧
    (∃ L ∈ t'.refreshTokens, L.revokedAt = none) ∧
    ∃ row ∈ t'.auditLogs, row.action = .refreshTokenReuseDetected ∧
      row.eventMetadata = some
      [("presented_token_id", .uuid ⟨40⟩), ("family_already_revoked", .bool true)])

theorem longSession_missed :
    ((Solo.serveAll plainEnvironment longSession (.start 0 {})).bind fun x =>
    (Solo.serveAll plainEnvironment [.refresh (plainEnvironment.token 18)]
      (.start x.2.step x.2.committed)).map
      fun y => (y.1, missesLast x.2.committed y.2.committed)) =
    some ([(.refresh (plainEnvironment.token 18), .error invalidRefreshToken)], true) := by
  decide +kernel

/-- The 27th token of a family stays unrevoked when the first one is presented again. -/
theorem reuse_missed : ∃ (p p' : Calls plainEnvironment) (T : RefreshToken), p.Reachable ∧
    T ∈ p.world.tokens ∧ T.tokenHash = plainEnvironment.token 18 ∧ T.revokedAt ≠ none ∧
      T.replacedBy ≠ none ∧
    Served (serve plainEnvironment) p (.refresh (plainEnvironment.token 18))
      (.error invalidRefreshToken) p' ∧
    (∃ row ∈ p'.tables.auditLogs, row.action = .refreshTokenReuseDetected ∧ row.eventMetadata =
      some [("presented_token_id", .uuid T.id), ("family_already_revoked", .bool true)]) ∧
    ¬ ReuseHandled p p' T := by
  obtain ⟨⟨calls, s⟩, hrun, hrest⟩ := Option.bind_eq_some_iff.mp longSession_missed
  obtain ⟨⟨calls', s'⟩, hreplay, heq⟩ := Option.map_eq_some_iff.mp hrest
  obtain ⟨rfl, hmissed⟩ := Prod.mk.inj heq
  have hquiet : (Calls.fresh plainEnvironment {}).Quiet := Calls.quiet_fresh {}
  obtain ⟨p, hserial, htables, hlength⟩ := hquiet.serial_as
    (Calls.reachable_after plainEnvironment []).sound hrun
  have hp : p.Reachable := (Calls.reachable_after plainEnvironment []).reaches hserial.reaches
  rw [← htables, ← hlength] at hreplay
  obtain ⟨p', hserial', htables', -⟩ := ((Calls.quiet_fresh {}).of_serial hserial).serial_as
    hp.sound hreplay
  rw [← htables, ← htables'] at hmissed
  obtain ⟨⟨T, hT, hhash, hrevoked, hnext, hid⟩, hhead, hchain, ⟨L, hL, hlive⟩, hlogged⟩ :=
    of_decide_eq_true hmissed
  cases hserial' with
  | cons hs hnil =>
      cases hnil
      refine ⟨p, p', T, hp, hT, hhash, hrevoked, hnext, hs, hid ▸ hlogged, fun hhandled => ?_⟩
      obtain ⟨r, hfirst, hr⟩ := Option.map_eq_some_iff.mp hhead
      obtain ⟨rest, hrows⟩ := List.head?_eq_some_iff.mp hfirst
      have hrows : p'.world.tokens = r :: rest := hrows
      have hchain : (r :: rest).IsChain fun a b => a.replacedBy = some b.id := hrows ▸ hchain
      obtain ⟨n, hlinks⟩ : ∃ n, rotation.Links p'.world.tokens n r.id L.id :=
        links_of_isChain hchain (fun y hy => hrows ▸ hy) (hrows ▸ hL)
      rw [hr, ← hid] at hlinks
      exact hhandled.revoked L hL hlinks.joined hlive

end SecureIam
