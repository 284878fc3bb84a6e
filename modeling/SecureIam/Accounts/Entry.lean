import SecureIam.Accounts.Renewal

/-!
`register`, `login` and `logout` when they run alone: their outcomes, and the tables that
they commit on the way.
-/
namespace SecureIam
open Lib App AuthService AuditLogRepository
variable {env : Environment} {t : Tables} {before : List Tables} {s : Solo}
    {email password x : String}

def registrationFailed (email : String) : AuditRecord where
  action := .userRegistrationFailed
  targetType := some .user
  eventMetadata := some [("attempted_email", .str email), ("reason", .str "duplicate_email")]

def unknownEmail (email : String) : AuditRecord where
  action := .userLoginFailed
  targetType := some .user
  eventMetadata := some [("attempted_email", .str email), ("reason", .str "unknown_email")]

/-- The outcome of a registration, and the committed tables, the last ones first. -/
inductive Registration (env : Environment) (t : Tables) (email : String) :
    Except Error RegisterResponse → List Tables → Prop
  | refused (hfits : UserRepository.emailFits (env.lower email) = false) :
      Registration env t email (.error .dataError) [t]
  | duplicate (hkey : t.hasKey (.email (env.lower email))) (id : Uuid) (now : Time) :
      Registration env t email
        (.error (.emailAlreadyExists "Unable to register with the provided details."))
        [t.recorded (registrationFailed email) id now, t]
  | registered (hfits : UserRepository.emailFits (env.lower email) = true)
      (hfree : ¬ t.hasKey (.email (env.lower email))) {user : User}
      (hid : ∀ τ, ¬ t.hasKey (.primary τ user.id)) (hemail : user.email = env.lower email)
      {t₁ : Tables} (ht₁ : t₁ = t.insert .users user) (id : Uuid) (now : Time) :
      Registration env t email (.ok ⟨user.id, user.email, user.createdAt⟩)
        [t₁.recorded (ownEvent .userRegistered user.id) id now, t₁, t]

/-- The outcome of a logout that takes the steps from `n` to `n'`. -/
inductive Farewell (env : Environment) (t : Tables) (x : String) (n n' : Nat) :
    Except Error Unit → List Tables → Prop
  | ambiguous {T T' : RefreshToken} (hT : T ∈ t.refreshTokens) (hT' : T' ∈ t.refreshTokens)
      (hne : T ≠ T') (hash : T.tokenHash = env.sha256 x) (hash' : T'.tokenHash = env.sha256 x) :
      Farewell env t x n n' (.error .multipleResultsFound) [t]
  | unknown (hnone : ∀ T ∈ t.refreshTokens, T.tokenHash ≠ env.sha256 x) :
      Farewell env t x n n' (.ok ()) [t]
  | again {T : RefreshToken} (hT : t.Presents env x T) (hrevoked : T.revokedAt ≠ none) :
      Farewell env t x n n' (.ok ()) [t]
  | loggedOut {T : RefreshToken} (hT : t.Presents env x T) (hlive : T.revokedAt = none) {m : Nat}
      (hm : n ≤ m ∧ m < n') {t₁ : Tables}
      (ht₁ : t₁ = (Write.setRevokedAt T.id (env.clock m)).apply t) (id : Uuid) (now : Time) :
      Farewell env t x n n' (.ok ()) [t₁.recorded (ownEvent .userLogout T.userId) id now, t₁, t]

/-- The outcome of a login that takes the steps from `n` to `n'`. -/
inductive Entrance (env : Environment) (t : Tables) (email password : String) (n n' : Nat) :
    Except Error TokenResponse → List Tables → Prop
  | refused (hstorable : storable (env.lower email) = false) :
      Entrance env t email password n n' (.error .dataError) [t]
  | unknown (hnone : ∀ u ∈ t.users, u.email ≠ env.lower email) (id : Uuid) (now : Time) :
      Entrance env t email password n n' (.error (.invalidCredentials "Invalid email or password."))
        [t.recorded (unknownEmail email) id now, t]
  | inactive {user : User} (huser : user ∈ t.users) (hemail : user.email = env.lower email)
      (hinactive : user.isActive = false) (id : Uuid) (now : Time) :
      Entrance env t email password n n' (.error (.inactiveUser "Account is inactive."))
        [t.recorded (loginFailed user "inactive_account") id now, t]
  | wrong {user : User} (huser : user ∈ t.users) (hemail : user.email = env.lower email)
      (hactive : user.isActive = true)
      (hwrong : env.verifyPassword password user.passwordHash = false) (id : Uuid) (now : Time) :
      Entrance env t email password n n' (.error (.invalidCredentials "Invalid email or password."))
        [t.recorded (loginFailed user "wrong_password") id now, t]
  | loggedIn {user : User} (huser : user ∈ t.users) (hemail : user.email = env.lower email)
      (hactive : user.isActive = true)
      (hright : env.verifyPassword password user.passwordHash = true)
      {i j k : Nat} (hk : n ≤ k ∧ k < n') (hj : n ≤ j ∧ j < n') {tokenId : Uuid}
      (hid : ¬ t.hasKey (.primary .refreshTokens tokenId)) {token : RefreshToken}
      (htoken : token = ⟨tokenId, user.id, env.sha256 (env.token k),
        env.clock j + env.settings.refreshTokenTtlDays * Time.day, none, none⟩)
      {t₁ t₂ : Tables} (ht₁ : t₁ = (Write.setLastLoginAt user.id (env.clock i)).apply t) (id : Uuid)
      (now : Time)
      (ht₂ : t₂ = t₁.recorded (ownEvent .userLoginSucceeded user.id) id now)
      (accessToken : String) : Entrance env t email password n n'
        (.ok ⟨accessToken, env.token k, "bearer", accessTokenTtlSeconds env⟩)
        [t₂.insert .refreshTokens token, t₂, t₁, t]

/-- A registration of an address that the column takes. -/
theorem register_ends_of_fits (h : s.Settled env t [])
    (hfits : UserRepository.emailFits (env.lower email) = true) (password : String) :
    ∃ out s' versions, Ends env (register env email password) s out s' ∧
      Registration env t email out versions ∧ s'.Leaves env versions := by
  have hhash : Ends env (hashPassword password) s (.ok (env.hashPassword s.step password))
    s.next := rfl
  have hcreate := ends_insertOne
    (UserRepository.draft (env.lower email) (env.hashPassword s.step password)) h.next
    (UserRepository.createUser_of_fits hfits _)
  by_cases hkey : t.hasKey (.email (env.lower email))
  · obtain ⟨s₁, hends, hsettled⟩ := ends_insertOne_error
      (UserRepository.draft (env.lower email) (env.hashPassword s.step password)) h.next
      (UserRepository.createUser_of_fits hfits _) fun hok =>
        hok.adds (.email (env.lower email)) (List.mem_cons_of_mem _ List.mem_cons_self) hkey
    obtain ⟨id, now, s', hrecord, hsettled'⟩ := raise_recorded_ends (α := User) hsettled
      (a := registrationFailed email) (fun _ hk => nomatch hk)
      (.emailAlreadyExists "Unable to register with the provided details.")
    exact ⟨_, s', _, hhash.bind (hends.handled hrecord).raise, .duplicate hkey id now,
      hsettled'.leaves⟩
  · have hid : ∀ τ, ¬ t.hasKey (.primary τ (env.uuid s.next.step)) := fun τ => h.next.undrawn τ
    have hok : (Write.insert .users
        ((UserRepository.draft (env.lower email) (env.hashPassword s.step password)).soloRow env
          s.next)).Ok t := by
      refine ⟨fun k hk => ?_, fun k hk => nomatch hk⟩
      cases List.mem_cons.mp hk with
      | inl hk => exact hk ▸ hid .users
      | inr hk => exact List.mem_singleton.mp hk ▸ hkey
    obtain ⟨s₁, hends, hsettled⟩ := hcreate hok List.mem_cons_self
    generalize huser : (UserRepository.draft (env.lower email)
      (env.hashPassword s.step password)).soloRow env s.next = user at hends hsettled
    have hexists : (t.insert .users user).hasKey (.primary .users user.id) := by
      refine Tables.hasKey_iff.mpr ⟨.users, user, ?_, List.mem_cons_self⟩
      rw [Tables.rows_insert_self]
      exact List.mem_append_right _ (List.mem_singleton_self _)
    obtain ⟨row, id, now, s', hrecord, hsettled'⟩ :=
      recorded_ends hsettled (a := ownEvent .userRegistered user.id)
        (references_user rfl rfl hexists)
    refine ⟨_, s', _, hhash.bind (hends.handle.bind (hrecord.bind rfl)),
      .registered hfits hkey ?_ ?_ rfl id now, hsettled'.leaves⟩
    · exact huser ▸ hid
    · exact huser ▸ rfl

theorem register_ends (h : s.Settled env t []) (email password : String) : ∃ out s' versions,
    Ends env (register env email password) s out s' ∧ Registration env t email out versions ∧
      s'.Leaves env versions := by
  cases hfits : UserRepository.emailFits (env.lower email) with
  | true => exact register_ends_of_fits h hfits password
  | false =>
      have hhash : Ends env (hashPassword password) s (.ok (env.hashPassword s.step password))
        s.next := rfl
      refine ⟨_, s.next, _, hhash.bind ?_, .refused hfits, h.next.leaves⟩
      rw [UserRepository.createUser_of_not_fits hfits]
      rfl

theorem logout_ends (h : s.Settled env t []) (x : String) : ∃ out s' versions,
    Ends env (logout env x) s out s' ∧ Farewell env t x s.step s'.step out versions ∧
      s'.Leaves env versions := by
  cases getByHash_ends h x with
  | inl hnone =>
      obtain ⟨hnone, hlookup⟩ := hnone
      exact ⟨_, s.touch, _, hlookup.bind rfl, .unknown hnone, h.touch.leaves⟩
  | inr hfound =>
      cases hfound with
      | inl hone =>
          obtain ⟨T, hT, hlookup⟩ := hone
          by_cases hlive : T.revokedAt = none
          · obtain ⟨m, row, s₁, hm, hrevoke, hsettled⟩ :=
              RefreshTokenRepository.revoke_ends h.touch hT.mem
            obtain ⟨row', id, now, s', hrecord, hsettled'⟩ := recorded_ends hsettled
              (a := ownEvent .userLogout T.userId)
              (references_user rfl rfl (owner_exists h.schema hT.mem))
            refine ⟨_, s', _, hlookup.bind ?_, .loggedOut hT hlive
              ⟨s.step.le_succ.trans hm.1, hm.2.trans_le hrecord.step_le⟩ rfl id now,
              hsettled'.leaves⟩
            simp only [ne_eq, hlive, not_true_eq_false, if_false]
            exact hrevoke.bind (hrecord.bind rfl)
          · refine ⟨_, s.touch, _, hlookup.bind ?_, .again hT hlive, h.touch.leaves⟩
            simp only [ne_eq, hlive, not_false_eq_true, if_true]
            rfl
      | inr hmany =>
          obtain ⟨⟨T, hT, T', hT', hne, hash, hash'⟩, hlookup⟩ := hmany
          exact ⟨_, s.touch, _, hlookup.raise, .ambiguous hT hT' hne hash hash', h.touch.leaves⟩

theorem getByEmail_ends (h : s.Settled env t before) {email : String}
    (hstorable : storable (env.lower email) = true) :
    Ends env (UserRepository.getByEmail env email) s
      (.ok (t.users.find? (·.email = env.lower email))) s.touch := by
  have hlookup : Ends env _ _ _ _ := ends_lookup (τ := .users) (k := .email (env.lower email))
    (p := (·.email = env.lower email)) h.good.schema (by simp +contextual [Table.keys])
  rw [h.view] at hlookup
  rw [UserRepository.getByEmail_of_storable hstorable]
  exact hlookup

theorem user_exists {user : User} (hu : user ∈ t.users) : t.hasKey (.primary .users user.id) :=
  Tables.hasKey_iff.mpr ⟨.users, user, hu, List.mem_cons_self⟩

/-- A login to an address that PostgreSQL can look for. -/
theorem login_ends_of_storable (h : s.Settled env t [])
    (hstorable : storable (env.lower email) = true) (password : String) : ∃ out s' versions,
    Ends env (login env email password) s out s' ∧ Entrance env t email password s.step s'.step out
      versions ∧
      s'.Leaves env versions := by
  have hlookup := getByEmail_ends h hstorable
  cases hfind : t.users.find? (·.email = env.lower email) with
  | none =>
      rw [hfind] at hlookup
      obtain ⟨id, now, s', hends, hsettled⟩ := raise_recorded_ends (α := TokenResponse) h.touch
        (a := unknownEmail email) (fun _ hk => nomatch hk)
        (.invalidCredentials "Invalid email or password.")
      refine ⟨_, s', _, hlookup.bind hends, .unknown (fun u hu => ?_) id now, hsettled.leaves⟩
      simpa using List.find?_eq_none.mp hfind u hu
  | some user =>
      rw [hfind] at hlookup
      have hmem := List.mem_of_find?_eq_some hfind
      have hemail : user.email = env.lower email := by simpa using List.find?_some hfind
      cases hactive : user.isActive with
      | false =>
          obtain ⟨id, now, s', hends, hsettled⟩ := raise_recorded_ends (α := TokenResponse) h.touch
            (a := loginFailed user "inactive_account") (references_user rfl rfl (user_exists hmem))
            (.inactiveUser "Account is inactive.")
          refine ⟨_, s', _, hlookup.bind ?_, .inactive hmem hemail hactive id now, hsettled.leaves⟩
          simp only [hactive, Bool.not_false, if_true]
          exact hends
      | true =>
          cases hverify : env.verifyPassword password user.passwordHash with
          | false =>
              obtain ⟨id, now, s', hends, hsettled⟩ := raise_recorded_ends (α := TokenResponse)
                h.touch
                (a := loginFailed user "wrong_password")
                (references_user rfl rfl (user_exists hmem))
                (.invalidCredentials "Invalid email or password.")
              refine ⟨_, s', _, hlookup.bind ?_, .wrong hmem hemail hactive hverify id now,
                hsettled.leaves⟩
              simp only [hactive, hverify, Bool.not_true, Bool.not_false, if_true,
                Bool.false_eq_true, if_false]
              exact hends
          | true =>
              obtain ⟨i, row, s₁, hlast, hsettled₁⟩ :=
                UserRepository.updateLastLogin_ends h.touch hmem
              have huser₁ := Write.hasKey_apply (.setLastLoginAt user.id (env.clock i))
                (k := .primary .users user.id) (LockKey.not_link (by decide)) (user_exists hmem)
              obtain ⟨row', id, now, s₂, hrecord, hsettled₂⟩ := recorded_ends hsettled₁
                (a := ownEvent .userLoginSucceeded user.id) (references_user rfl rfl huser₁)
              have haccess : ∃ accessToken, Ends env (createAccessToken env (toString user.id)) s₂
                (.ok accessToken)
                  s₂.next.next := ⟨_, rfl⟩
              obtain ⟨accessToken, haccess⟩ := haccess
              have hsettled₃ := hsettled₂.next.next
              have hstep : s.step ≤ s₂.next.next.step := ((s.step.le_succ.trans hlast.step_le).trans
                hrecord.step_le).trans haccess.step_le
              generalize s₂.next.next = s₃ at haccess hsettled₃ hstep
              have htoken : Ends env generateRefreshToken s₃ (.ok (env.token s₃.step))
                s₃.next := rfl
              have hexpiry : Ends env (refreshTokenExpiry env) s₃.next
                (.ok (env.clock s₃.next.step + env.settings.refreshTokenTtlDays * Time.day))
                s₃.next.next := rfl
              obtain ⟨tokenId, s', hfresh, hcreate, hsettled'⟩ :=
                RefreshTokenRepository.create_ends hsettled₃.next.next (u := user.id) huser₁
                  (env.sha256 (env.token s₃.step))
                  (env.clock s₃.next.step + env.settings.refreshTokenTtlDays * Time.day)
              have hend : s₃.step + 2 ≤ s'.step := hcreate.step_le
              refine ⟨_, s', _, hlookup.bind ?_, .loggedIn (k := s₃.step) (j := s₃.next.step)
                hmem hemail hactive
                hverify ⟨hstep, ?_⟩ ⟨hstep.trans s₃.step.le_succ, ?_⟩ (hfresh .refreshTokens)
                rfl rfl id now rfl accessToken, hsettled'.leaves⟩
              · simp only [hactive, hverify, Bool.not_true, Bool.false_eq_true, if_false]
                exact hlast.bind (hrecord.bind
                  (haccess.bind (htoken.bind (hexpiry.bind (hcreate.bind rfl)))))
              · omega
              · exact hend

theorem login_ends (h : s.Settled env t []) (email password : String) : ∃ out s' versions,
    Ends env (login env email password) s out s' ∧ Entrance env t email password s.step s'.step out
      versions ∧
      s'.Leaves env versions := by
  cases hstorable : storable (env.lower email) with
  | true => exact login_ends_of_storable h hstorable password
  | false =>
      refine ⟨_, s, _, ?_, .refused hstorable, h.leaves⟩
      rw [login, UserRepository.getByEmail_of_not_storable hstorable]
      rfl

/-- A logout revokes the presented token or none. -/
theorem Farewell.tokens {t' : Tables} {n n' : Nat} {out : Except Error Unit}
    {versions : List Tables} (h : Farewell env t x n n' out versions)
    (hhead : versions.head? = some t') :
    t'.refreshTokens = t.refreshTokens ∨ ∃ T m, t.Presents env x T ∧
      t'.refreshTokens = ((Write.setRevokedAt T.id (env.clock m)).apply t).refreshTokens := by
  cases h with
  | ambiguous _ _ _ _ _ | unknown _ | again _ _ =>
      exact .inl (congrArg Tables.refreshTokens (Option.some.inj hhead)).symm
  | loggedOut hT hlive hm ht₁ id now =>
      exact .inr ⟨_, _, hT, ht₁ ▸ (congrArg Tables.refreshTokens (Option.some.inj hhead)).symm⟩

/-- A login adds one token, if it succeeds. -/
theorem Entrance.tokens {t' : Tables} {n n' : Nat} {out : Except Error TokenResponse}
    {versions : List Tables} (h : Entrance env t email password n n' out versions)
    (hhead : versions.head? = some t') :
    (t'.refreshTokens = t.refreshTokens ∧ ∃ e, out = .error e) ∨
    ∃ r token, out = .ok r ∧ t'.refreshTokens = t.refreshTokens ++ [token] ∧
      token.tokenHash = env.sha256 r.refreshToken ∧ token.revokedAt = none ∧
        token.replacedBy = none ∧ ∀ T ∈ t.refreshTokens, T.id ≠ token.id := by
  have htokens {g : Tables} (hg : some g = some t') : t'.refreshTokens = g.refreshTokens :=
    (congrArg Tables.refreshTokens (Option.some.inj hg)).symm
  cases h with
  | refused _ | unknown _ _ _ | inactive _ _ _ _ _ | wrong _ _ _ _ _ _ =>
      exact .inl ⟨(htokens hhead).trans rfl, _, rfl⟩
  | @loggedIn user huser hemail hactive hright i j k hk hj tokenId hid token htoken t₁ t₂ ht₁ id now
      ht₂ access =>
      subst ht₁ ht₂ htoken
      refine .inr ⟨_, _, rfl, htokens hhead, rfl, rfl, rfl, fun T hT heq => hid ?_⟩
      exact Tables.hasKey_iff.mpr ⟨.refreshTokens, T, hT, by simp [Table.keys, heq]⟩

namespace Calls.Sound
variable {p p' : Calls env} {n : Nat} {w : History env Request} {out : Except Error Response}

/-- A login that is served alone. -/
theorem entered (h : p.Sound) (hs : Served (serve env) p (.login email password) out p') :
    ∃ out' n' versions, out = out'.map Response.tokens ∧ n' < p'.world.trace.length ∧
      Entrance env p.tables email password p.world.trace.length n' out' versions ∧
      versions.head? = some p'.tables := by
  obtain ⟨out', s', versions, hends, hentrance, hleaves⟩ := login_ends h.settled email password
  have hcall : Ends env (call env (.login email password)) (.start p.world.trace.length p.tables)
    _ s' :=
    hends.map Response.tokens
  obtain ⟨hout, hhead, hlength⟩ := h.served_leaves hcall hleaves hs
  exact ⟨out', s'.step, versions, hout, hlength ▸ s'.step.lt_succ_self, hentrance, hhead⟩

/-- A logout that is served alone. -/
theorem left (h : p.Sound) (hs : Served (serve env) p (.logout x) out p') :
    ∃ out' n' versions, out = out'.map (fun _ => Response.done) ∧ n' < p'.world.trace.length ∧
      Farewell env p.tables x p.world.trace.length n' out' versions ∧
        versions.head? = some p'.tables := by
  obtain ⟨out', s', versions, hends, hfarewell, hleaves⟩ := logout_ends h.settled x
  have hcall : Ends env (call env (.logout x)) (.start p.world.trace.length p.tables) _ s' :=
    hends.map fun _ => Response.done
  obtain ⟨hout, hhead, hlength⟩ := h.served_leaves hcall hleaves hs
  exact ⟨out', s'.step, versions, hout, hlength ▸ s'.step.lt_succ_self, hfarewell, hhead⟩

/-- A registration that is cut off. -/
theorem register_cut (h : p.Sound) (hcut : p.Cut (.register email password) n w) :
    ∃ out, ∃ s' : Solo, ∃ versions before, Registration env p.tables email out versions ∧
      s'.Leaves env versions ∧
      w.commits p.threads.length = before.length ∧ (w.shared.state :: before) <:+ versions := by
  obtain ⟨out, s', versions, hends, hregistration, hleaves⟩ :=
    register_ends h.settled email password
  have hcall : Ends env (call env (.register email password)) (.start p.world.trace.length p.tables)
    _ s' :=
    hends.map Response.registered
  obtain ⟨before, hcommits, hversions⟩ := h.cut_leaves hcall hleaves hcut
  exact ⟨out, s', versions, before, hregistration, hleaves, hcommits, hversions⟩

/-- A logout that is cut off. -/
theorem logout_cut (h : p.Sound) (hcut : p.Cut (.logout x) n w) :
    ∃ out, ∃ s' : Solo, ∃ versions before, Farewell env p.tables x p.world.trace.length s'.step out
      versions ∧
      s'.Leaves env versions ∧ w.commits p.threads.length = before.length ∧
        (w.shared.state :: before) <:+ versions := by
  obtain ⟨out, s', versions, hends, hfarewell, hleaves⟩ := logout_ends h.settled x
  have hcall : Ends env (call env (.logout x)) (.start p.world.trace.length p.tables) _ s' :=
    hends.map fun _ => Response.done
  obtain ⟨before, hcommits, hversions⟩ := h.cut_leaves hcall hleaves hcut
  exact ⟨out, s', versions, before, hfarewell, hleaves, hcommits, hversions⟩

end Calls.Sound

end SecureIam
