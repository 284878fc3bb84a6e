import SecureIam.Tokens.Outcomes

/-!
`AuthService.refresh` keeps the token protocol. The call reads the presented token,
then either walks its family or, if the token passes every check, rotates it.
-/
namespace SecureIam
open Lib AuthService RefreshTokenRepository
variable {env : Environment} {α : Type} {i : Nat} {req : Request} {l l' : Session}
  {u v w w' : History env Request} {x : String} {Q : Protocol.Post (machine env) Request Error α}
  {past : List (Entry (machine env) Request)}

/-- The event of a rejection, and the error. -/
theorem wp_reject {a : AuditRecord} (hu : TokenInv u) (hp : l.pending = [])
    (hactor : ∀ actor, a.actorUserId = some actor → u.shared.state.hasKey (.primary .users actor))
    (horg : a.organizationId = none) (ha : a.action ≠ .refreshTokenReuseDetected)
    (h : Rejection env x i invalidRefreshToken u) :
    (tokenProtocol env).wp i (.refresh x) (CallPost env (.refresh x) i)
      ((AuditLogRepository.record a).bind fun _ => .raise invalidRefreshToken) l u := by
  have hjust : Justified env (.refresh x) (u.own i) a := fun hreuse => absurd hreuse ha
  refine wp_record hu.families hp hactor horg hjust fun w l' _ hw hpassed hp' _ => ?_
  exact wp_raise hw.families (tokenFree_of_nil hp') (h.passed hpassed)

/-- The first statement of the call has found the one token with the hash of `x`. -/
structure Presented (env : Environment) (x : String) (i : Nat) (T : RefreshToken) (l : Session)
    (u : History env Request) : Prop where
  inv : TokenInv u
  pending : l.pending = []
  first : ∃ e, u.own i = [e] ∧ e.mark.Idle ∧ T ∈ tokensOf e.before ∧
    ∀ T' ∈ tokensOf e.before, T'.tokenHash = env.sha256 x → T' = T
  stands : Stands i u
  row : T ∈ u.tokens
  hash : T.tokenHash = env.sha256 x
  users : ∀ id, l.users id = none
  mapped : ∀ id y, l.refreshTokens id = some y → id = T.id

namespace Presented
variable {T : RefreshToken} (h : Presented env x i T l u)
include h

theorem hasOwner {w : History env Request} (hp : Passed i u w) (hw : TokenInv w) :
    ∀ actor, some T.userId = some actor → w.shared.state.hasKey (.primary .users actor) := by
  intro actor hactor
  obtain rfl := Option.some.inj hactor
  obtain ⟨T', hT', hev⟩ := hp.evolves.kept T h.row
  exact hev.userId ▸ hw.hasOwner hT'

/-- A call that has done nothing since may reject the token for any of the reasons. -/
theorem rejection (hp : Passed i u w) (hunfit : Unfit w i T) :
    Rejection env x i invalidRefreshToken w := by
  obtain ⟨e₀, hown, hidle, -, honly⟩ := h.first
  have hall : ∀ e ∈ w.own i, e.mark.Idle := by
    intro e he
    cases hp.cases he with
    | inl he => exact List.mem_singleton.mp (hown ▸ he) ▸ hidle
    | inr he => exact he
  refine ⟨fun e he => (hall e he).2, fun e he id hm => absurd hm ((hall e he).1 id), e₀,
    hp.getElem? (by rw [hown]; rfl), .inr ⟨rfl, fun T' hT' hhash => ?_⟩⟩
  rw [honly T' hT' hhash]
  exact hunfit

/-- So may a call that has walked the family of a revoked token. -/
theorem rejection_of_walk (hend : Walked (u.own i) T.id i l' w) (hev : Evolves u.tokens w.tokens)
    (hrev : Revoked w.tokens T.id) : Rejection env x i invalidRefreshToken w := by
  obtain ⟨e₀, hown, hidle, -, honly⟩ := h.first
  obtain ⟨new, hnew, hmarks⟩ := hend.own
  obtain ⟨T', hT', hTev⟩ := hev.kept T h.row
  rw [hown] at hnew
  refine ⟨fun e he => ?_, fun e he id hm => ?_,
    e₀, by rw [hnew]; rfl, .inr ⟨rfl, fun T₀ hT₀ hhash => ?_⟩⟩
  · rw [hnew, List.mem_append, List.mem_singleton] at he
    cases he with
    | inl he => exact he ▸ hidle.2
    | inr he => exact (hmarks e he).1
  · rw [hnew, List.mem_append, List.mem_singleton] at he
    cases he with
    | inl he => exact absurd hm (he ▸ hidle.1 id)
    | inr he =>
        obtain ⟨n, hl⟩ := (hmarks e he).2 id hm
        exact ⟨T', hT', hTev.tokenHash.trans h.hash, n, hTev.id ▸ hl⟩
  · exact .inl (honly T₀ hT₀ hhash ▸ hrev)

end Presented

theorem wp_handleRevokedToken {T : RefreshToken} (h : Presented env x i T l u)
    (hrev : T.revokedAt ≠ none) :
    (tokenProtocol env).wp i (.refresh x) (CallPost env (.refresh x) i)
      ((handleRevokedToken T).bind fun _ => .raise invalidRefreshToken) l u := by
  have hrevoked : Revoked u.tokens T.id := ⟨T, h.row, rfl, hrev⟩
  have hpassed : Passed i u u := .refl i h.inv.families
  rw [handleRevokedToken]
  split
  · simp only [Program.bind_def, Program.bind_assoc, Program.pure_def, Program.ret_bind]
    exact wp_reject h.inv h.pending (h.hasOwner hpassed h.inv) rfl (by simp [rejected])
      (h.rejection hpassed (.inl hrevoked))
  · rename_i hne
    obtain ⟨next, hn⟩ := Option.ne_none_iff_exists'.mp hne
    have hlink : rotation.Links u.tokens 1 T.id next := Chaining.links_one ⟨T, h.row, rfl, hn⟩
    have hwalking : Walking (u.own i) T.id 1 i l u := by
      refine ⟨h.inv, h.pending, h.stands, .refl _ _ _, fun id y hy => ⟨0, by omega, ?_⟩⟩
      exact (h.mapped id y hy).symm
    simp only [Program.bind_def, Program.bind_assoc, revokeDescendants, hn]
    refine wp_walk hwalking hlink (Nat.zero_add _) fun w l₂ leaf hev hend => ?_
    obtain ⟨T', hT', hTev⟩ := hev.kept T h.row
    have hrejection := h.rejection_of_walk hend hev (hrevoked.evolves hev)
    have hactor : ∀ actor, some T.userId = some actor →
        w.shared.state.hasKey (.primary .users actor) := by
      intro actor hactor
      obtain rfl := Option.some.inj hactor
      exact hTev.userId ▸ hend.inv.hasOwner hT'
    obtain ⟨last, hlast, hafter⟩ := hend.stands
    have hjust : Justified env (.refresh x) (w.own i) (reuseDetected T leaf.isNone) := by
      have hreplaced : T'.replacedBy = some next := (hTev.frozen hrev).trans hn
      intro _
      refine ⟨x, leaf.isNone, last, T', by rw [hafter]; exact hT', rfl,
        hTev.tokenHash.trans h.hash, by simp [hreplaced], by rw [hTev.id]; rfl, hlast, ?_⟩
      rw [hafter, hTev.id]
      exact hend.ended
    refine wp_record hend.inv.families hend.pending hactor rfl hjust
      fun w₃ l₃ _ hw₃ hpassed₃ hp₃ _ => ?_
    have hlasts : ∀ actor, some T.userId = some actor →
        w₃.shared.state.hasKey (.primary .users actor) := by
      intro actor hactor
      obtain rfl := Option.some.inj hactor
      obtain ⟨T'', hT'', hTev'⟩ := hpassed₃.evolves.kept T' hT'
      exact (hTev.trans hTev').userId ▸ hw₃.hasOwner hT''
    cases leaf with
    | none => exact wp_raise hw₃.families (tokenFree_of_nil hp₃) (hrejection.passed hpassed₃)
    | some leaf =>
        simp only [Program.bind_assoc, Program.pure_def, Program.ret_bind]
        exact wp_reject hw₃ hp₃ hlasts rfl (by simp [familyRevoked]) (hrejection.passed hpassed₃)

/-- A rotation that went through: the new row, and the only revocation since `past`. -/
structure Paired (past : List (Entry (machine env) Request)) (T : RefreshToken) (hash : String)
    (i : Nat) (w : History env Request) : Prop where
  inv : TokenInv w
  rows : ∃ p ∈ w.tokens, p.id = T.id ∧ p.userId = T.userId ∧ p.tokenHash = T.tokenHash ∧
    p.revokedAt ≠ none ∧ ∃ c : RefreshToken, p.replacedBy = some c.id ∧ c.userId = T.userId ∧
      c.tokenHash = hash ∧ (∃ e ∈ w.own i, e.mark = .guard T.id 1) ∧
      (∃ e ∈ w.own i, e.mark = .issued c) ∧
      ∀ e ∈ w.own i, ∀ id, e.mark.Revokes id → e ∈ past ∨ id = T.id

/-- The rest of the rotation, once the old token is revoked in the transaction. -/
theorem wp_rotation {T p : RefreshToken} {t : Time} {hash : String} {expiresAt : Time}
    {f : Option RefreshToken → App α} (hu : TokenInv u) (hp : l.pending = [.setRevokedAt T.id t])
    (hpu : p ∈ u.tokens) (hev : T.Evolves p) (hlive : p.revokedAt = none)
    (hreq : ∃ x : String, req = .refresh x ∧ T.tokenHash = env.sha256 x)
    (hdrawn : ∀ id, Drawn u i ⟨id, T.userId, hash, expiresAt, none, none⟩)
    (honce : ∀ e ∈ u.own i, ∀ y, e.mark ≠ .issued y)
    (hguard : ∃ e ∈ u.own i, e.mark = .guard T.id 1)
    (honly : ∀ e ∈ u.own i, ∀ id, e.mark.Revokes id → e ∈ past ∨ id = T.id)
    (hwon : ∀ w l' c, Paired past T hash i w → l'.pending = [] →
      (tokenProtocol env).wp i req Q (f (some c)) l' w) :
    (tokenProtocol env).wp i req Q
      ((App.insert .refreshTokens (draft T.userId hash expiresAt)).bind fun newToken =>
        (setReplacedBy T.id newToken.id).bind fun _ =>
          App.commit.bind fun _ =>
            (App.refresh .refreshTokens newToken.id).bind fun newToken =>
              (App.refresh .refreshTokens T.id).bind fun _ => f (some newToken)) l u := by
  have hfirst : tokenKey p.id ∈ (Write.setRevokedAt T.id t).keys := by
    rw [hev.id]
    exact List.mem_singleton_self _
  refine wp_insertToken (hev.userId ▸ hu.hasOwner hpu) hdrawn honce
    fun v₁ w₁ l₁ id hran₁ hstate₁ hp₁ => ?_
  have hpw₁ : p ∈ w₁.tokens := by
    rw [World.tokens, tokensOf, hstate₁]
    exact hran₁.later.row (hp ▸ List.mem_singleton_self _) hfirst hpu
  rw [hp, List.singleton_append] at hp₁
  have hmem₁ : .setRevokedAt T.id t ∈ l₁.pending := hp₁ ▸ List.mem_cons_self
  have hview : ∀ v : History env Request, l₁.view v.shared =
      (Write.insert .refreshTokens ⟨id, T.userId, hash, expiresAt, none, none⟩).apply
        ((Write.setRevokedAt T.id t).apply v.shared.state) := by
    intro v
    rw [Session.view, hp₁]
    rfl
  simp only [setReplacedBy, Program.bind_def, Program.bind_assoc]
  refine wp_updateReplacedBy (fun v hv => ?_) (fun v hv => ?_) fun v₂ w₂ l₂ hran₂ hstate₂ hp₂ => ?_
  · refine Constraints.lasts_view (C := schema) l₁.pending _ _ (LockKey.not_link (by decide)) ?_
    exact hasKey_token.mpr ⟨p, hv.row hmem₁ hfirst hpw₁, hev.id⟩
  · rw [hview]
    exact hasKey_token.mpr ⟨_, List.mem_append_right _ (List.mem_singleton_self _), rfl⟩
  · have hpw₂ : p ∈ w₂.tokens := by
      rw [World.tokens, tokensOf, hstate₂]
      exact hran₂.later.row hmem₁ hfirst hpw₁
    rw [hp₁] at hp₂
    obtain ⟨e₀, he₀, hm₀⟩ := hguard
    have hid := hev.id
    refine wp_commit_rotate (t := t) (p := p) (x := ⟨id, T.userId, hash, expiresAt, none, none⟩)
      (by rw [hp₂, hid]; rfl) hpw₂ hlive hev.userId.symm rfl rfl
      ⟨e₀, hran₂.kept (hran₁.kept he₀), .inl (hid ▸ hm₀)⟩
      ⟨_, hran₂.kept hran₁.mem_own, rfl, hev.tokenHash ▸ hreq⟩ fun v₃ w₃ hran₃ hpv₃ hw₃ => ?_
    have hnew : p.supersede p.id t id ∈ w₃.tokens := by
      rw [hw₃]
      exact List.mem_append_left _ (List.mem_map_of_mem hpv₃)
    have hchild : w₃.shared.state.hasKey (tokenKey id) := by
      refine hasKey_token.mpr ⟨⟨id, T.userId, hash, expiresAt, none, none⟩, ?_, rfl⟩
      show _ ∈ w₃.tokens
      rw [hw₃]
      exact List.mem_append_right _ (List.mem_singleton_self _)
    refine wp_refresh rfl (by simp [Table.Link]) hchild fun v₄ w₄ l₄ c hran₄ _ hl₄ _ _ => ?_
    have hold : w₄.shared.state.hasKey (tokenKey T.id) :=
      hran₄.lasts _ (LockKey.not_link (by decide))
        (hasKey_token.mpr ⟨_, hnew, by simp [RefreshToken.supersede, hid]⟩)
    refine wp_refresh (by simp [hl₄]) (by simp [Table.Link]) hold
      fun v₅ w₅ l₅ _ hran₅ _ hl₅ _ _ => ?_
    have hpassed : Passed i w₁ w₅ :=
      ((hran₂.passed hran₁.inv.families (Mark.Neutral.idle trivial)).trans
        (hran₃.passed hran₂.inv.families (Mark.Neutral.idle trivial))).trans
      ((hran₄.passed hran₃.inv.families (Mark.Neutral.idle trivial)).trans
        (hran₅.passed hran₄.inv.families (Mark.Neutral.idle trivial)))
    obtain ⟨q, hq, hqev⟩ := (hran₄.evolves.trans hran₅.evolves).kept _ hnew
    have hrevoked : (p.supersede p.id t id).revokedAt ≠ none := by simp [RefreshToken.supersede]
    refine hwon w₅ l₅ c ⟨hran₅.inv, q, hq, ?_, ?_, ?_, hqev.revoked hrevoked,
      ⟨id, T.userId, hash, expiresAt, none, none⟩, ?_, rfl, rfl,
      ⟨e₀, hpassed.mem (hran₁.kept he₀), hm₀⟩, ⟨_, hpassed.mem hran₁.mem_own, rfl⟩,
      fun e he id' hm => ?_⟩ (by simp [hl₅, hl₄])
    · exact hqev.id.trans (by simp [RefreshToken.supersede, hid])
    · exact hqev.userId.trans (by simp [RefreshToken.supersede, hev.userId])
    · exact hqev.tokenHash.trans (by simp [RefreshToken.supersede, hev.tokenHash])
    · exact (hqev.frozen hrevoked).trans (by simp [RefreshToken.supersede])
    · cases hpassed.cases he with
      | inl he =>
          rw [hran₁.own, List.mem_append, List.mem_singleton] at he
          cases he with
          | inl he => exact honly e he id' hm
          | inr he =>
              subst he
              cases hm with
              | inl hm => cases hm
              | inr hm => cases hm
      | inr hidle => exact absurd hm (hidle.1 id')

theorem wp_createRotationPair {T : RefreshToken} {hash : String} {expiresAt : Time}
    {f : Option RefreshToken → App α} (hu : TokenInv u) (hp : l.pending = [])
    (hT : ∃ p ∈ u.tokens, T.Evolves p)
    (hreq : ∃ x : String, req = .refresh x ∧ T.tokenHash = env.sha256 x)
    (hdrawn : ∀ id, Drawn u i ⟨id, T.userId, hash, expiresAt, none, none⟩)
    (honce : ∀ e ∈ u.own i, ∀ y, e.mark ≠ .issued y)
    (hlost : ∀ w l', TokenInv w → Passed i u w → l'.pending = [] → Revoked w.tokens T.id →
      (tokenProtocol env).wp i req Q (f none) l' w)
    (hwon : ∀ w l' c, Paired (u.own i) T hash i w → l'.pending = [] →
      (tokenProtocol env).wp i req Q (f (some c)) l' w) :
    (tokenProtocol env).wp i req Q ((createRotationPair T hash expiresAt).bind f) l u := by
  simp only [createRotationPair, revokeIfActive, Program.bind_def, Program.bind_assoc,
    Program.pure_def]
  refine wp_utcNow fun v₁ w₁ hran₁ _ => ?_
  have hpassed₁ := hran₁.passed hu.families (Mark.Neutral.idle trivial)
  obtain ⟨p₀, hp₀, hev₀⟩ := hT
  obtain ⟨p₁, hp₁, hev₁⟩ := hran₁.evolves.kept p₀ hp₀
  refine wp_revokeIfActive hp (fun v₂ w₂ l₂ hran₂ hstate₂ hrevoked hl₂ => ?_)
    fun v₂ w₂ l₂ p hran₂ hstate₂ hpv₂ hid hlive hp₂ => ?_
  · simp only [if_true, Program.ret_bind]
    have hidle : (Stmt.mark (.revokeIfActive T.id (env.clock v₁.trace.length)) 0).Idle :=
      Mark.Neutral.idle Nat.zero_ne_one
    obtain ⟨p₂, hp₂, hev₂⟩ := hran₂.later.1.2.kept p₁ hp₁
    have hid : p₂.id = T.id := (hev₀.trans (hev₁.trans hev₂)).id
    refine hlost w₂ l₂ hran₂.inv (hpassed₁.trans (hran₂.passed hran₁.inv.families hidle))
      (by simp [hl₂, hp]) ⟨p₂, ?_, hid, hrevoked p₂ hp₂ hid⟩
    rw [World.tokens, tokensOf, hstate₂]
    exact hp₂
  · simp only [Nat.one_ne_zero, if_false, Program.bind_assoc, Program.ret_bind]
    obtain ⟨p₂, hpp₂, hev₂⟩ := hran₂.later.1.2.kept p₁ hp₁
    have hev : T.Evolves p₂ := hev₀.trans (hev₁.trans hev₂)
    obtain rfl := hran₂.later.2.1.families.row_unique hpp₂ hpv₂ (hev.id.trans hid.symm)
    have hown : w₂.own i = u.own i ++ [entry i req .utcNow (env.clock v₁.trace.length) v₁ w₁,
        entry i req (.revokeIfActive T.id (env.clock v₁.trace.length)) 1 v₂ w₂] := by
      rw [hran₂.own, hran₁.own, List.append_assoc]
      rfl
    have hcases : ∀ e ∈ w₂.own i, e ∈ u.own i ∨ e.mark = .read (env.clock v₁.trace.length) ∨
        e.mark = .guard T.id 1 := by
      intro e he
      rw [hown] at he
      simp only [List.mem_append, List.mem_cons, List.not_mem_nil, or_false] at he
      exact he.imp_right fun he => he.imp (congrArg Entry.mark) (congrArg Entry.mark)
    refine wp_rotation (f := f) hran₂.inv hp₂ ?_ hev hlive hreq (fun id => (hdrawn id).grow hown)
      (fun e he y hm => ?_)
      ⟨_, hran₂.mem_own, rfl⟩ (fun e he id' hm => ?_) hwon
    · rw [World.tokens, tokensOf, hstate₂]
      exact hpp₂
    · rcases hcases e he with he | he | he
      · exact honce e he y hm
      · cases he.symm.trans hm
      · cases he.symm.trans hm
    · rcases hcases e he with he | he | he
      · exact .inl he
      · rw [he] at hm
        cases hm with
        | inl hm => cases hm
        | inr hm => cases hm
      · rw [he] at hm
        cases hm with
        | inl hm => exact .inr (Mark.guard.inj hm).1.symm
        | inr hm => cases hm

/-- The draw, the rotation and the response, for a token that passed every check. -/
theorem wp_rotateFit {T : RefreshToken} {user : User} (h : Presented env x i T l u)
    (hpassed : Passed i u w) (hw : TokenInv w) (hp : l'.pending = []) (huser : user.id = T.userId) :
    (tokenProtocol env).wp i (.refresh x) (CallPost env (.refresh x) i)
      (generateRefreshToken.bind fun newRawRefreshToken =>
        (refreshTokenExpiry env).bind fun newExpiresAt =>
          (createRotationPair T (env.sha256 newRawRefreshToken) newExpiresAt).bind
            fun pair =>
            (match pair with
              | none =>
                  (AuditLogRepository.record (rejected T "concurrent_rotation_lost")).bind fun _ =>
                    .raise invalidRefreshToken
              | some _ =>
                  (AuditLogRepository.record
                    { action := .refreshTokenRotated
                      actorUserId := some user.id
                      targetType := some .user
                      targetId := some user.id }).bind fun _ =>
                    (createAccessToken env (toString user.id)).bind fun accessToken =>
                      (.ret ⟨accessToken, newRawRefreshToken, "bearer", accessTokenTtlSeconds env⟩ :
                        App TokenResponse)).bind fun r => .ret (.tokens r)) l' w := by
  refine wp_tokenUrlsafe fun v₁ w₁ hran₁ _ => ?_
  simp only [refreshTokenExpiry, Program.bind_def, Program.bind_assoc, Program.pure_def,
    Program.ret_bind]
  refine wp_utcNow fun v₂ w₂ hran₂ _ => ?_
  have hpassed₂ : Passed i u w₂ :=
    (hpassed.trans (hran₁.passed hw.families (Mark.Neutral.idle trivial))).trans
      (hran₂.passed hran₁.inv.families (Mark.Neutral.idle trivial))
  obtain ⟨e₀, hown₀, hidle₀, -⟩ := h.first
  have hidle₂ : ∀ e ∈ w₂.own i, e.mark.Idle := by
    intro e he
    cases hpassed₂.cases he with
    | inl he => exact List.mem_singleton.mp (hown₀ ▸ he) ▸ hidle₀
    | inr he => exact he
  refine wp_createRotationPair hran₂.inv hp (hpassed₂.evolves.kept T h.row) ⟨x, rfl, h.hash⟩
    (fun id => ?_)
    (fun e he => (hidle₂ e he).2) (fun w₃ l₃ hw₃ hpassed₃ hp₃ hrev => ?_)
    fun w₃ l₃ c hpair hp₃ => ?_
  · refine ⟨entry i (.refresh x) .tokenUrlsafe (env.token v₁.trace.length) v₁ w₁,
      entry i (.refresh x) .utcNow (env.clock v₂.trace.length) v₂ w₂, ?_, rfl, rfl, rfl, rfl⟩
    rw [hran₂.own, hran₁.own, List.append_assoc]
    exact (List.suffix_append _ _).isInfix
  · have hpassed₃ := hpassed₂.trans hpassed₃
    simp only [Program.bind_assoc, Program.raise_bind]
    exact wp_reject hw₃ hp₃ (h.hasOwner hpassed₃ hw₃) rfl (by simp [rejected])
      (h.rejection hpassed₃ (.inl hrev))
  · obtain ⟨p, hpw, hid, huid, hhash, hrev, c₀, hnext, hcuser, hchash, hguard, hissued, honly⟩ :=
      hpair.rows
    have hrotation : ∀ accessToken, Rotation env x i
        ⟨accessToken, env.token v₁.trace.length, "bearer", accessTokenTtlSeconds env⟩ w₃ := by
      intro accessToken
      refine ⟨p, hpw, hhash.trans h.hash, hrev, c₀, hnext, hcuser.trans huid.symm, hchash,
        hid ▸ hguard, hissued, fun e he id' hm => ?_⟩
      cases honly e he id' hm with
      | inl he => exact absurd hm ((hidle₂ e he).1 id')
      | inr hid' => exact hid'.trans hid.symm
    simp only [Program.bind_assoc, Program.ret_bind]
    have hactor : ∀ actor, some user.id = some actor →
        w₃.shared.state.hasKey (.primary .users actor) := by
      intro actor hactor
      rw [← Option.some.inj hactor, huser, ← huid]
      exact hpair.inv.hasOwner hpw
    have hjust : Justified env (.refresh x) (w₃.own i)
        { action := .refreshTokenRotated, actorUserId := some user.id,
          targetType := some .user, targetId := some user.id } := fun hreuse => nomatch hreuse
    refine wp_record hpair.inv.families hp₃ hactor rfl hjust fun w₄ l₄ _ hw₄ hpassed₄ hp₄ _ => ?_
    refine wp_createAccessToken hw₄.families fun w₅ token hw₅ hpassed₅ => ?_
    exact wp_ret hw₅.families (tokenFree_of_nil hp₄)
      ⟨_, rfl, (hrotation _).passed (hpassed₄.trans hpassed₅)⟩

theorem wp_rotateCall {T : RefreshToken} (h : Presented env x i T l u) :
    (tokenProtocol env).wp i (.refresh x) (CallPost env (.refresh x) i)
      ((AuthService.rotate env T).bind fun r => .ret (.tokens r)) l u := by
  simp only [AuthService.rotate, Program.bind_def, Program.bind_assoc]
  refine wp_utcNow fun v₁ w₁ hran₁ hstate₁ => ?_
  have hpassed₁ : Passed i u w₁ := hran₁.passed h.inv.families (Mark.Neutral.idle trivial)
  obtain ⟨e₀, hown₀, hidle₀, -⟩ := h.first
  have hown₁ : (w₁.own i)[1]? = some (entry i (.refresh x) .utcNow (env.clock v₁.trace.length)
      v₁ w₁) := by
    rw [hran₁.own, hown₀]
    rfl
  split
  · rename_i hexpired
    simp only [Program.bind_assoc, Program.raise_bind]
    refine wp_reject hran₁.inv h.pending (h.hasOwner hpassed₁ hran₁.inv) rfl (by simp [rejected]) ?_
    exact h.rejection hpassed₁ (.inr (.inl ⟨_, _, hown₁, rfl, hexpired⟩))
  · simp only [UserRepository.getById, Program.bind_def, Program.bind_assoc]
    refine wp_select h.pending fun v₂ w₂ l₂ hran₂ hstate₂ hl₂ => ?_
    have hpassed₂ : Passed i u w₂ :=
      hpassed₁.trans (hran₂.passed hran₁.inv.families (Mark.Neutral.idle trivial))
    have hp₂ : l₂.pending = [] := by simp [hl₂, h.pending]
    rw [Session.object_users h.users, List.map_id']
    have hrefused : (∀ user ∈ v₂.shared.state.users, user.id = T.userId → user.isActive = false) →
        Unfit w₂ i T := by
      intro hinactive
      have hown₂ : ∃ e, (w₂.own i)[2]? = some e ∧ e.before = v₂.shared :=
        ⟨_, by rw [hran₂.own, hran₁.own, hown₀]; rfl, rfl⟩
      obtain ⟨e₂, he₂, hbefore⟩ := hown₂
      exact .inr (.inr ⟨e₂, he₂, by rw [hbefore]; exact hinactive⟩)
    have hreject : Unfit w₂ i T →
        (tokenProtocol env).wp i (.refresh x) (CallPost env (.refresh x) i)
          ((AuditLogRepository.record (rejected T "inactive_or_deleted_owner")).bind
            fun _ => .raise invalidRefreshToken) l₂ w₂ := fun hunfit =>
      wp_reject hran₂.inv hp₂ (h.hasOwner hpassed₂ hran₂.inv) rfl (by simp [rejected])
        (h.rejection hpassed₂ hunfit)
    cases hran₂.later.2.1.sound.schema.filter_key (τ := .users) (k := .primary .users T.userId)
      (p := fun user => user.id = T.userId) (by simp +contextual [Table.keys]) with
    | inl hnone =>
        have hnone' : v₂.shared.state.users.filter (·.id = T.userId) = [] := hnone
        rw [hnone']
        simp only [App.scalarOneOrNone, Program.pure_def, Program.ret_bind, Option.filter_none,
          Program.bind_assoc, Program.raise_bind]
        refine hreject (hrefused fun user huser hid => ?_)
        exact absurd (decide_eq_true hid) (List.filter_eq_nil_iff.mp hnone' user huser)
    | inr hsome =>
        obtain ⟨user, huser, hid, hfilter⟩ := hsome
        have hfilter' : v₂.shared.state.users.filter (·.id = T.userId) = [user] := hfilter
        rw [hfilter']
        simp only [App.scalarOneOrNone, Program.pure_def, Program.ret_bind]
        cases hactive : user.isActive with
        | false =>
            simp only [Option.filter_some, hactive, Bool.false_eq_true, if_false,
              Program.bind_assoc, Program.raise_bind]
            refine hreject (hrefused fun user' huser' hid' => ?_)
            have hmem : user' ∈ v₂.shared.state.users.filter (·.id = T.userId) :=
              List.mem_filter.mpr ⟨huser', decide_eq_true hid'⟩
            rw [hfilter', List.mem_singleton] at hmem
            exact hmem ▸ hactive
        | true =>
            simp only [Option.filter_some, hactive, if_true, Program.bind_assoc]
            exact wp_rotateFit h hpassed₂ hran₂.inv hp₂ (of_decide_eq_true hid)

/-- The first statement of a call that presents a token. -/
theorem wp_getByHash {f : Option RefreshToken → App α} (hown : u.own i = [])
    (hnone : ∀ w l e, TokenInv w → l.pending = [] → w.own i = [e] → e.mark.Idle →
      (∀ T ∈ tokensOf e.before, T.tokenHash ≠ env.sha256 x) →
      (tokenProtocol env).wp i req Q (f none) l w)
    (hone : ∀ w l T, Presented env x i T l w → (tokenProtocol env).wp i req Q (f (some T)) l w)
    (hmany : ∀ w l e, TokenInv w → l.pending = [] → w.own i = [e] → e.mark.Idle →
      (∃ T ∈ tokensOf e.before, ∃ T' ∈ tokensOf e.before, T.id ≠ T'.id ∧
        T.tokenHash = env.sha256 x ∧ T'.tokenHash = env.sha256 x) →
      (tokenProtocol env).wp i req Q (.raise .multipleResultsFound) l w) :
    (tokenProtocol env).wp i req Q ((getByHash (env.sha256 x)).bind f) {} u := by
  simp only [getByHash, Program.bind_def, Program.bind_assoc]
  refine wp_select rfl fun v w l₁ hran hstate hl₁ => ?_
  rw [Session.object_refreshTokens fun _ => rfl, List.map_id']
  have hp₁ : l₁.pending = [] := by simp [hl₁]
  have hfirst : ∃ e, w.own i = [e] ∧ e.mark.Idle ∧ e.before = v.shared := by
    refine ⟨_, by rw [hran.own, hown]; rfl, ?_, rfl⟩
    exact Mark.Neutral.idle trivial
  obtain ⟨e₀, hown₀, hidle₀, hbefore₀⟩ := hfirst
  have hmem : ∀ T, T ∈ v.tokens.filter (·.tokenHash = env.sha256 x) ↔
      T ∈ tokensOf e₀.before ∧ T.tokenHash = env.sha256 x := by
    intro T
    rw [hbefore₀, List.mem_filter, decide_eq_true_eq]
  have hnodup : ((v.tokens.filter (·.tokenHash = env.sha256 x)).map RefreshToken.id).Nodup :=
    hran.later.2.1.families.linear.unique.sublist (List.filter_sublist.map _)
  have hfilter : v.shared.state.refreshTokens.filter (·.tokenHash = env.sha256 x) =
    v.tokens.filter (·.tokenHash = env.sha256 x) := rfl
  rw [hfilter] at hl₁ ⊢
  cases hrows : v.tokens.filter (·.tokenHash = env.sha256 x) with
  | nil =>
      refine hnone w l₁ e₀ hran.inv hp₁ hown₀ hidle₀ fun T hT hhash => ?_
      have hT' := (hmem T).mpr ⟨hT, hhash⟩
      simp [hrows] at hT'
  | cons T rows =>
      cases rows with
      | nil =>
          have hT := (hmem T).mp (by simp [hrows])
          rw [hrows] at hl₁
          have hpresented : Presented env x i T l₁ w := by
            refine ⟨hran.inv, hp₁, ⟨e₀, hown₀, hidle₀, hT.1, fun T' hT' hhash => ?_⟩,
              hran.stands, ?_, hT.2, fun id => by rw [hl₁]; rfl, fun id y hy => ?_⟩
            · simpa [hrows] using (hmem T').mpr ⟨hT', hhash⟩
            · rw [World.tokens, tokensOf, hstate]
              rw [hbefore₀] at hT
              exact hT.1
            · simp only [hl₁, Session.load, Session.touch, Option.none_or] at hy
              have hid := List.find?_some hy
              have hmem := List.mem_of_find?_eq_some hy
              rw [List.mem_singleton] at hmem
              exact (of_decide_eq_true hid).symm.trans (hmem ▸ rfl)
          exact hone w l₁ T hpresented
      | cons T' rows =>
          refine hmany w l₁ e₀ hran.inv hp₁ hown₀ hidle₀ ?_
          have hT := (hmem T).mp (by simp [hrows])
          have hT' := (hmem T').mp (by simp [hrows])
          refine ⟨T, hT.1, T', hT'.1, ?_, hT.2, hT'.2⟩
          rw [hrows] at hnodup
          simp only [List.map_cons, List.nodup_cons, List.mem_cons, not_or] at hnodup
          exact hnodup.1.1

theorem wp_refreshCall (hown : u.own i = []) :
    (tokenProtocol env).wp i (.refresh x) (CallPost env (.refresh x) i) (call env (.refresh x)) {}
      u := by
  have hall : ∀ {w : History env Request} {e₀ : Entry (machine env) Request}, w.own i = [e₀] →
      e₀.mark.Idle → ∀ e ∈ w.own i, e.mark.Idle :=
    fun hown hidle e he => List.mem_singleton.mp (hown ▸ he) ▸ hidle
  simp only [call, AuthService.refresh, Program.map_def, Program.bind_def, Program.bind_assoc]
  refine wp_getByHash hown (fun w l e hw hp hown hidle hnone => ?_) (fun w l T hT => ?_)
    fun w l e hw hp hown hidle hmany => ?_
  · have hidle := hall hown hidle
    simp only [Program.bind_assoc, Program.raise_bind]
    refine wp_reject hw hp (by simp) rfl (by simp) ⟨fun e he => (hidle e he).2,
      fun e he id hm => absurd hm ((hidle e he).1 id), e, by rw [hown]; rfl, .inr ⟨rfl, ?_⟩⟩
    exact fun T hT hhash => absurd hhash (hnone T hT)
  · simp only
    split
    · rename_i hrev
      simp only [Program.bind_assoc, Program.raise_bind]
      exact wp_handleRevokedToken hT hrev
    · exact wp_rotateCall hT
  · have hidle := hall hown hidle
    exact wp_raise hw.families (tokenFree_of_nil hp) ⟨fun e he => (hidle e he).2,
      fun e he id hm => absurd hm ((hidle e he).1 id), e, by rw [hown]; rfl, .inl ⟨rfl, hmany⟩⟩

end SecureIam
