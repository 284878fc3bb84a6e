import SecureIam.Tokens.Refresh

/-!
Every service call keeps the token protocol.
-/
namespace SecureIam
open Lib AuthService RefreshTokenRepository
variable {env : Environment} {α : Type} {i : Nat} {req : Request} {l l' : Session}
  {u v w w' : History env Request} {x : String} {Q : Protocol.Post (machine env) Request Error α}

/-- The unconditional revocation of a logout. -/
theorem wp_revoke {T : RefreshToken} {f : RefreshToken → App α} (h : Presented env x i T l u)
    (hend : ∀ w l' row, TokenInv w → l'.pending = [] → Logout env x i (.ok .done) w →
      w.shared.state.hasKey (.primary .users T.userId) →
      (tokenProtocol env).wp i req Q (f row) l' w) :
    (tokenProtocol env).wp i req Q ((RefreshTokenRepository.revoke T).bind f) l u := by
  obtain ⟨e₀, hown₀, hidle₀, -, honly⟩ := h.first
  simp only [RefreshTokenRepository.revoke, Program.bind_def, Program.bind_assoc]
  refine wp_utcNow fun v₁ w₁ hran₁ _ => ?_
  have hpassed₁ : Passed i u w₁ := hran₁.passed h.inv.families (Mark.Neutral.idle trivial)
  have hkey : w₁.shared.state.hasKey (tokenKey T.id) :=
    hpassed₁.hasKey (LockKey.not_link (by decide)) (hasKey_token.mpr ⟨T, h.row, rfl⟩)
  refine wp_updateRevokedAt h.pending hkey fun v₂ w₂ l₂ y hran₂ hstate₂ hy hid hp₂ => ?_
  obtain ⟨y', hy', hyev⟩ := (hpassed₁.evolves.trans hran₂.later.1.2).kept T h.row
  obtain rfl := hran₂.later.2.1.families.row_unique hy hy' (hid.trans hyev.id.symm)
  have hyw₂ : y ∈ w₂.tokens := by
    rw [World.tokens, tokensOf, hstate₂]
    exact hy
  simp only [App.flushOne, if_true, Program.pure_def, Program.ret_bind]
  refine wp_commit_revoke hp₂ hyw₂ hid ⟨_, hran₂.mem_own, .inr rfl⟩ fun v₃ w₃ hran₃ hyv₃ hw₃ => ?_
  have hrow : y.revoke T.id (env.clock v₁.trace.length) ∈ w₃.tokens :=
    hw₃ ▸ List.mem_map_of_mem hyv₃
  have hsame := revoke_same y T.id (env.clock v₁.trace.length)
  have hrevoked : (y.revoke T.id (env.clock v₁.trace.length)).revokedAt ≠ none := by
    simp [RefreshToken.revoke, hid]
  have hlogout : Logout env x i (.ok .done) w₃ := by
    refine ⟨fun e he => ?_, e₀, ?_, fun _ T' hT' hhash _ => ?_⟩
    · rw [hran₃.own, hran₂.own, hran₁.own, hown₀] at he
      simp only [List.cons_append, List.nil_append, List.mem_cons, List.not_mem_nil, or_false] at he
      rcases he with rfl | rfl | rfl | rfl
      · exact .inl hidle₀
      · exact .inl (Mark.Neutral.idle trivial)
      · exact .inr ⟨y, hy, by rw [hid]; rfl, hyev.tokenHash.trans h.hash,
          ⟨_, hrow, hsame.1, hrevoked⟩, fun hn => ⟨_, hrow, hsame.1, hrevoked, hsame.2.2.trans hn⟩⟩
      · exact .inl (Mark.Neutral.idle trivial)
    · rw [hran₃.own, hran₂.own, hran₁.own, hown₀]
      rfl
    · rw [honly T' hT' hhash]
      exact ⟨_, hran₃.kept hran₂.mem_own, rfl⟩
  have hkey₃ : w₃.shared.state.hasKey (tokenKey T.id) :=
    hasKey_token.mpr ⟨_, hrow, hsame.1.trans hid⟩
  refine wp_refresh rfl (by simp [Table.Link]) hkey₃ fun v₄ w₄ l₄ row hran₄ _ hl₄ _ _ => ?_
  have hpassed₄ := hran₄.passed hran₃.inv.families (Mark.Neutral.idle trivial)
  refine hend w₄ l₄ row hran₄.inv (by simp [hl₄]) (hlogout.passed hpassed₄) ?_
  have howner := hran₃.inv.hasOwner hrow
  rw [hsame.2.1, hyev.userId] at howner
  exact hpassed₄.hasKey (LockKey.not_link (by decide)) howner

theorem wp_logoutCall (hown : u.own i = []) :
    (tokenProtocol env).wp i (.logout x) (CallPost env (.logout x) i) (call env (.logout x)) {}
      u := by
  simp only [call, AuthService.logout, Program.map_def, Program.bind_def, Program.bind_assoc]
  refine wp_getByHash hown (fun w l e hw hp hown hidle hnone => ?_) (fun w l T hT => ?_)
    fun w l e hw hp hown hidle _ => ?_
  · exact wp_ret hw.families (tokenFree_of_nil hp)
      (.of_idle hown hidle fun _ T hT hhash => absurd hhash (hnone T hT))
  · obtain ⟨e₀, hown₀, hidle₀, -, honly⟩ := hT.first
    simp only
    split
    · rename_i hrev
      exact wp_ret hT.inv.families (tokenFree_of_nil hT.pending)
        (.of_idle hown₀ hidle₀ fun _ T' hT' hhash => honly T' hT' hhash ▸ hrev)
    · simp only [Program.bind_assoc]
      refine wp_revoke hT fun w l _ hw hp hlogout hkey => ?_
      refine wp_record hw.families hp (fun actor hactor => Option.some.inj hactor ▸ hkey) rfl
        (fun hreuse => by cases hreuse) fun w' l' _ hw' hpassed hp' _ => ?_
      exact wp_ret hw'.families (tokenFree_of_nil hp') (hlogout.passed hpassed)
  · exact wp_raise hw.families (tokenFree_of_nil hp) (.of_idle hown hidle fun hout => by cases hout)

/-- A login's new token. -/
theorem wp_create {userId : Uuid} {hash : String} {expiresAt : Time} {f : RefreshToken → App α}
    (hp : l.pending = []) (huser : u.shared.state.hasKey (.primary .users userId))
    (hdrawn : ∀ id, Drawn u i ⟨id, userId, hash, expiresAt, none, none⟩)
    (honce : ∀ e ∈ u.own i, ∀ y, e.mark ≠ .issued y) (hlogin : req.isLogin)
    (hend : ∀ w l' row, TokenInv w → l'.pending = [] →
      (∀ e ∈ w.own i, e ∈ u.own i ∨ ∀ id, ¬ e.mark.Revokes id) →
      (tokenProtocol env).wp i req Q (f row) l' w) :
    (tokenProtocol env).wp i req Q ((create userId hash expiresAt).bind f) l u := by
  simp only [create, Program.bind_def, Program.bind_assoc]
  refine wp_insertToken huser hdrawn honce fun v₁ w₁ l₁ id hran₁ _ hp₁ => ?_
  rw [hp, List.nil_append] at hp₁
  refine wp_commit_create hp₁ rfl rfl ⟨_, hran₁.mem_own, rfl, hlogin⟩ fun v₂ w₂ hran₂ hw₂ => ?_
  have hkey : w₂.shared.state.hasKey (tokenKey id) := by
    refine hasKey_token.mpr ⟨⟨id, userId, hash, expiresAt, none, none⟩, ?_, rfl⟩
    show _ ∈ w₂.tokens
    rw [hw₂]
    exact List.mem_append_right _ (List.mem_singleton_self _)
  refine wp_refresh rfl (by simp [Table.Link]) hkey fun v₃ w₃ l₃ row hran₃ _ hl₃ _ _ => ?_
  have hpassed : Passed i w₁ w₃ :=
    (hran₂.passed hran₁.inv.families (Mark.Neutral.idle trivial)).trans
      (hran₃.passed hran₂.inv.families (Mark.Neutral.idle trivial))
  refine hend w₃ l₃ row hran₃.inv (by simp [hl₃]) fun e he => ?_
  cases hpassed.cases he with
  | inl he =>
      rw [hran₁.own, List.mem_append, List.mem_singleton] at he
      refine he.imp_right fun he id hm => ?_
      subst he
      cases hm with
      | inl hm => cases hm
      | inr hm => cases hm
  | inr hidle => exact .inr hidle.1

theorem wp_issueTokenPair {user : User} {f : TokenResponse → App α} (hu : TokenInv u)
    (hp : l.pending = []) (huser : u.shared.state.hasKey (.primary .users user.id))
    (hidle : ∀ e ∈ u.own i, e.mark.Idle) (hlogin : req.isLogin)
    (hend : ∀ w l' response, TokenInv w → l'.pending = [] →
      (∀ e ∈ w.own i, ∀ id, ¬ e.mark.Revokes id) →
      (tokenProtocol env).wp i req Q (f response) l' w) :
    (tokenProtocol env).wp i req Q ((issueTokenPair env user).bind f) l u := by
  simp only [issueTokenPair, Program.bind_def, Program.bind_assoc]
  refine wp_createAccessToken hu.families fun w₁ accessToken hw₁ hpassed₁ => ?_
  refine wp_tokenUrlsafe fun v₂ w₂ hran₂ _ => ?_
  simp only [refreshTokenExpiry, Program.bind_def, Program.bind_assoc, Program.pure_def,
    Program.ret_bind]
  refine wp_utcNow fun v₃ w₃ hran₃ _ => ?_
  have hpassed₃ : Passed i u w₃ :=
    (hpassed₁.trans (hran₂.passed hw₁.families (Mark.Neutral.idle trivial))).trans
      (hran₃.passed hran₂.inv.families (Mark.Neutral.idle trivial))
  have hidle₃ : ∀ e ∈ w₃.own i, e.mark.Idle := fun e he => (hpassed₃.cases he).elim (hidle e) id
  refine wp_create hp (hpassed₃.hasKey (LockKey.not_link (by decide)) huser) (fun id => ?_)
    (fun e he => (hidle₃ e he).2) hlogin fun w₄ l₄ row hw₄ hp₄ hcases => ?_
  · refine ⟨entry i req .tokenUrlsafe (env.token v₂.trace.length) v₂ w₂,
      entry i req .utcNow (env.clock v₃.trace.length) v₃ w₃, ?_, rfl, rfl, rfl, rfl⟩
    rw [hran₃.own, hran₂.own, List.append_assoc]
    exact (List.suffix_append _ _).isInfix
  · refine hend w₄ l₄ _ hw₄ hp₄ fun e he => ?_
    cases hcases e he with
    | inl he => exact (hidle₃ e he).1
    | inr he => exact he

/-- `last_login_at` is no concern of the tokens, whether or not the row is found. -/
theorem wp_updateLastLogin {user : User} {f : User → App α} (hu : TokenInv u) (hp : l.pending = [])
    (huser : u.shared.state.hasKey (.primary .users user.id))
    (hstale : ∀ w l', TokenInv w → Passed i u w → l'.TokenFree →
      (tokenProtocol env).wp i req Q (.raise .staleDataError) l' w)
    (hend : ∀ w l' row, TokenInv w → Passed i u w → l'.pending = [] →
      (tokenProtocol env).wp i req Q (f row) l' w) :
    (tokenProtocol env).wp i req Q ((UserRepository.updateLastLogin user).bind f) l u := by
  simp only [UserRepository.updateLastLogin, Program.bind_def, Program.bind_assoc]
  refine wp_utcNow fun v₁ w₁ hran₁ _ => ?_
  refine wp_quiet (o := .updateLastLoginAt user.id (env.clock v₁.trace.length)) rfl
    (fun _ => trivial) fun v₂ c w₂ l₂ hran₂ _ => ?_
  have hpassed₂ : Passed i u w₂ :=
    (hran₁.passed hu.families (Mark.Neutral.idle trivial)).trans
      (hran₂.passed hran₁.inv.families (Mark.Neutral.idle trivial))
  have hfree : l₂.TokenFree := by
    obtain ⟨g, hg, -⟩ := hran₂.result
    obtain ⟨-, -, us, hpend, hus⟩ := (exec_effect hg).grows rfl
    intro p hp'
    rw [hpend, hp, List.nil_append] at hp'
    exact hus p hp' ▸ trivial
  rw [App.flushOne]
  split
  · simp only [Program.pure_def, Program.ret_bind]
    refine wp_commit (fun v w => Published.of_commit_tokenFree hfree) fun v₃ w₃ hran₃ _ => ?_
    have hpassed₃ := hpassed₂.trans (hran₃.passed hran₂.inv.families (Mark.Neutral.idle trivial))
    have hkey := hpassed₃.hasKey (LockKey.not_link (by decide)) huser
    refine wp_refresh rfl (by simp [Table.Link]) hkey fun v₄ w₄ l₄ row hran₄ _ hl₄ _ _ => ?_
    exact hend w₄ l₄ row hran₄.inv
      (hpassed₃.trans (hran₄.passed hran₃.inv.families (Mark.Neutral.idle trivial))) (by simp [hl₄])
  · exact hstale w₂ l₂ hran₂.inv hpassed₂ hfree

theorem wp_loginCall {email password : String} (hu : TokenInv u) (hown : u.own i = []) :
    (tokenProtocol env).wp i (.login email password) (CallPost env (.login email password) i)
      (call env (.login email password)) {} u := by
  have hidle : ∀ {w}, Passed i u w → ∀ e ∈ w.own i, e.mark.Idle := by
    intro w hpassed e he
    cases hpassed.cases he with
    | inl he => exact absurd he (by simp [hown])
    | inr he => exact he
  have hraise : ∀ {w l error}, TokenInv w → Passed i u w → l.TokenFree →
      (tokenProtocol env).wp i (.login email password) (CallPost env (.login email password) i)
        (.raise error) l w :=
    fun hw hpassed hfree => wp_raise hw.families hfree fun e he => (hidle hpassed e he).1
  -- a failed login records its event and raises
  have hfail : ∀ {w l a error}, TokenInv w → Passed i u w → l.pending = [] →
      (∀ actor, a.actorUserId = some actor → w.shared.state.hasKey (.primary .users actor)) →
      a.organizationId = none → a.action ≠ .refreshTokenReuseDetected →
      (tokenProtocol env).wp i (.login email password) (CallPost env (.login email password) i)
        ((AuditLogRepository.record a).bind fun _ => .raise error) l w := by
    intro w l a error hw hpassed hp hactor horg ha
    refine wp_record hw.families hp hactor horg (fun hreuse => absurd hreuse ha)
      fun w' l' _ hw' hpassed' hp' _ => ?_
    exact hraise hw' (hpassed.trans hpassed') (tokenFree_of_nil hp')
  simp only [call, AuthService.login, UserRepository.getByEmail, Program.map_def, Program.bind_def,
    Program.bind_assoc, App.requireData_bind]
  split
  case isFalse => exact hraise hu (.refl i hu.families) (tokenFree_of_nil rfl)
  refine wp_select rfl fun v w l₁ hran hstate hl₁ => ?_
  have hpassed : Passed i u w := hran.passed hu.families (Mark.Neutral.idle trivial)
  have hp₁ : l₁.pending = [] := by simp [hl₁]
  rw [Session.object_users fun _ => rfl, List.map_id']
  cases hrows : v.shared.state.users.filter (·.email = env.lower email) with
  | nil =>
      simp only [App.scalarOneOrNone, Program.pure_def, Program.ret_bind, Program.bind_assoc,
        Program.raise_bind]
      exact hfail hran.inv hpassed hp₁ (by simp) rfl (by simp)
  | cons user rows =>
      have huser : user ∈ v.shared.state.users := by
        have hmem : user ∈ v.shared.state.users.filter (·.email = env.lower email) := by
          simp [hrows]
        exact (List.mem_filter.mp hmem).1
      have hkey : w.shared.state.hasKey (.primary .users user.id) := by
        rw [hstate]
        exact Tables.hasKey_iff.mpr ⟨.users, user, huser, List.mem_cons_self⟩
      have hactor : ∀ actor, some user.id = some actor →
          w.shared.state.hasKey (.primary .users actor) :=
        fun actor hactor => Option.some.inj hactor ▸ hkey
      cases rows with
      | cons _ _ =>
          simp only [App.scalarOneOrNone]
          exact hraise hran.inv hpassed (tokenFree_of_nil hp₁)
      | nil =>
          simp only [App.scalarOneOrNone, Program.pure_def, Program.ret_bind]
          split
          · simp only [Program.bind_assoc, Program.raise_bind]
            exact hfail hran.inv hpassed hp₁ hactor rfl (by simp [loginFailed])
          · split
            · simp only [Program.bind_assoc, Program.raise_bind]
              exact hfail hran.inv hpassed hp₁ hactor rfl (by simp [loginFailed])
            · simp only [Program.bind_assoc]
              refine wp_updateLastLogin hran.inv hp₁ hkey
                (fun w₂ l₂ hw₂ hpassed₂ hfree => hraise hw₂ (hpassed.trans hpassed₂) hfree)
                fun w₂ l₂ row hw₂ hpassed₂ hp₂ => ?_
              have hkey₂ := hpassed₂.hasKey (LockKey.not_link (by decide)) hkey
              refine wp_record hw₂.families hp₂
                (fun actor hactor => Option.some.inj hactor ▸ hkey₂) rfl
                (fun hreuse => by cases hreuse) fun w₃ l₃ _ hw₃ hpassed₃ hp₃ _ => ?_
              have hkey₃ := hpassed₃.hasKey (LockKey.not_link (by decide)) hkey₂
              refine wp_issueTokenPair hw₃ hp₃ hkey₃
                (hidle (hpassed.trans (hpassed₂.trans hpassed₃))) rfl
                fun w₄ l₄ response hw₄ hp₄ hquiet => ?_
              exact wp_ret hw₄.families (tokenFree_of_nil hp₄) hquiet

/-- The statements of the other calls leave the tokens alone. -/
theorem tokenFree_of_uses {τs : List Table} {as : List AuditAction} {p : App α} (h : Uses τs as p)
    (hτ : .refreshTokens ∉ τs) (ha : .refreshTokenReuseDetected ∉ as) : p.All Stmt.TokenFree := by
  refine h.mono fun o ho => ?_
  cases o with
  | insert τ draft =>
      cases τ
      case refreshTokens => exact absurd ho hτ
      case auditLogs => exact fun id now hreuse => ha (hreuse ▸ ho id now)
      all_goals trivial
  | revokeIfActive _ _ | updateRevokedAt _ _ | updateReplacedBy _ _ => exact absurd ho hτ
  | _ => trivial

theorem wp_call (req : Request) (hu : TokenInv u) (hown : u.own i = []) :
    (tokenProtocol env).wp i req (CallPost env req i) (call env req) {} u := by
  have hfree : .refreshTokens ∉ req.tables → .refreshTokenReuseDetected ∉ req.actions →
      (tokenProtocol env).wp i req (fun _ l' w => l'.TokenFree ∧ QuietSince [] i w) (call env req)
      {} u :=
    fun hτ ha => wp_tokenFree (tokenFree_of_uses (call_uses req) hτ ha) (tokenFree_of_nil rfl)
      (hown ▸ .refl i u)
  have hquiet : ∀ {w : History env Request}, QuietSince [] i w → ∀ e ∈ w.own i, e.mark.Idle := by
    intro w hq e he
    obtain ⟨new, hown, hnew⟩ := hq
    rw [hown, List.nil_append] at he
    exact (hnew e he).idle
  -- the hash of the presented string cannot be computed, and nothing has been issued
  have hsurrogate : u.own i = [] → (.error .unicodeEncodeError : Except Error Response) =
      .error .unicodeEncodeError ∧ ∀ e ∈ u.own i, e.mark.Idle := by
    intro hown
    rw [hown]
    exact ⟨rfl, fun e he => by cases he⟩
  cases req with
  | login _ _ => exact wp_loginCall hu hown
  | refresh x =>
      cases x with
      | text _ => exact wp_refreshCall hown
      | surrogate _ _ _ => exact wp_raise hu.families (tokenFree_of_nil rfl) (hsurrogate hown)
  | logout x =>
      cases x with
      | text _ => exact wp_logoutCall hown
      | surrogate _ _ _ => exact wp_raise hu.families (tokenFree_of_nil rfl) (hsurrogate hown)
  | _ =>
      refine (hfree (by simp [Request.tables]) (by simp [Request.actions])).mono ?_
      intro out l' w' _ _ hpost
      exact ⟨hpost.1, hquiet hpost.2⟩

/-- The rollback that ends a call changes nothing that the call has reached. -/
theorem wp_rollback {out : Except Error Response} (hu : TokenInv u)
    (hpost : CallPost env req i out l u) :
    (tokenProtocol env).wp i req (fun stop l' w => stop = .ok () ∧ TokenPost env req i out l' w)
      App.rollback l u := by
  intro v hv r w l' hexec
  obtain ⟨hinv, htokens, -⟩ := hv.2.1.tokenFree hv.2.2 hpost.1 hexec trivial
  have hev : Evolves v.tokens w.tokens := htokens ▸ .refl _
  have hran : Ran i req .rollback r l l' u v w := ⟨hv, hexec, hinv, hv.1.2.trans hev⟩
  refine ⟨hinv, hev, fun w' hlater => ⟨rfl, hpost.2.passed ?_⟩⟩
  exact (hran.passed hu.families (Mark.Neutral.idle trivial)).trans (hlater.passed hinv.families)

/-- Any number of calls, in any interleaving, keep the token protocol. -/
theorem serve_keeps (env : Environment) :
    (tokenProtocol env).Serves (TokenPost env) (serve env) := by
  intro req i u hu hfresh
  have hown : u.own i = [] := List.filter_eq_nil_iff.mpr fun e he => by simpa using hfresh e he
  refine Protocol.wp_ensure ((wp_call req hu hown).mono fun out l w hw _ hpost => ?_)
    fun hinv hpost hlater => hpost.passed (hlater.passed hinv.families)
  refine (wp_rollback hw hpost).mono fun stop l' w' _ _ hpost' => ?_
  obtain ⟨rfl, hpost'⟩ := hpost'
  exact hpost'

end SecureIam
