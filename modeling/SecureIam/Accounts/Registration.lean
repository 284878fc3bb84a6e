import SecureIam.Accounts.Owners
import SecureIam.Tokens.Reachable

/-!
One account for each email, and the login that finds it, whatever the order of the calls.
-/
namespace SecureIam
open Lib AuthService
variable {env : Environment} {α : Type} {i : Nat} {req : Request} {l l' : Session}
  {u v w w' : History env Request} {Q : Protocol.Post (machine env) Request Error α}

theorem hasKey_user {t : Tables} {id : Uuid} :
    t.hasKey (.primary .users id) ↔ ∃ user ∈ t.users, user.id = id := by
  simp [Tables.hasKey, Tables.rows, LockKey.table, Table.keys, eq_comm (a := id)]

/-- The pair of tokens is one of the user: the access token is signed with the time that the call
has read and the `jti` that it has drawn, and the refresh token is stored. -/
structure IssuedTo (env : Environment) (userId : Uuid) (i : Nat) (response : TokenResponse)
    (w : History env Request) : Prop where
  access : ∃ e ∈ w.own i, ∃ e' ∈ w.own i, e.op = .utcNow ∧ e'.op = .uuid4 ∧
    response.accessToken = env.jwtEncode
      { sub := toString userId
        type := "access"
        iat := env.clock e.step / Time.second
        exp := (env.clock e.step + env.settings.accessTokenTtlMinutes * 60 * Time.second)
          / Time.second
        jti := toString (env.uuid e'.step)
        iss := env.settings.jwtIssuer }
  refresh : ∃ e ∈ w.own i, ∃ row ∈ e.after.state.refreshTokens, row.userId = userId ∧
    row.tokenHash = env.sha256 response.refreshToken ∧ row.revokedAt = none ∧
      row.replacedBy = none ∧ ∃ e' ∈ w.own i, e'.op = .utcNow ∧
        row.expiresAt = env.clock e'.step + env.settings.refreshTokenTtlDays * Time.day
  tokenType : response.tokenType = "bearer"
  expiresIn : response.expiresIn = accessTokenTtlSeconds env

theorem IssuedTo.mono {userId : Uuid} {response : TokenResponse}
    (h : IssuedTo env userId i response w) (hsub : w.own i ⊆ w'.own i) :
    IssuedTo env userId i response w' := by
  obtain ⟨e, he, e', he', haccess⟩ := h.access
  obtain ⟨d, hd, row, hrow, huser, hhash, hlive, hnext, d', hd', hexpires⟩ := h.refresh
  exact ⟨⟨e, hsub he, e', hsub he', haccess⟩,
    ⟨d, hsub hd, row, hrow, huser, hhash, hlive, hnext, d', hsub hd', hexpires⟩,
    h.tokenType, h.expiresIn⟩

/-- How a login ends when its lookup finds the users of `t`. -/
def LoginEnd (env : Environment) (email password : String) (t : Tables) (i : Nat)
    (out : Except Error Response) (w : History env Request) : Prop :=
  ((∀ user ∈ t.users, user.email ≠ env.lower email) ∧
      out = .error (.invalidCredentials "Invalid email or password.")) ∨
    ∃ user ∈ t.users, user.email = env.lower email ∧
      ((user.isActive = false ∧ out = .error (.inactiveUser "Account is inactive.")) ∨
        (user.isActive = true ∧ env.verifyPassword password user.passwordHash = false ∧
          out = .error (.invalidCredentials "Invalid email or password.")) ∨
        (user.isActive = true ∧ env.verifyPassword password user.passwordHash = true ∧
          ∃ response, out = .ok (.tokens response) ∧ IssuedTo env user.id i response w))

def LoginPost (env : Environment) (email password : String) (i : Nat) (out : Except Error Response)
    (w : History env Request) : Prop :=
  (App.storable (env.lower email) = true ∧
    ∃ e, (w.own i).head? = some e ∧ LoginEnd env email password e.before.state i out w) ∨
  (App.storable (env.lower email) = false ∧ out = .error .dataError)

theorem wp_tokenPair {user : User} {f : TokenResponse → App α} (hp : l.pending = [])
    (huser : u.shared.state.hasKey (.primary .users user.id))
    (h : ∀ w l' response, AccountInv w → Onward (fun _ => True) i u w → l'.pending = [] →
      IssuedTo env user.id i response w → (accountProtocol env).wp i req Q (f response) l' w) :
    (accountProtocol env).wp i req Q ((issueTokenPair env user).bind f) l u := by
  simp only [issueTokenPair, createAccessToken, generateRefreshToken, refreshTokenExpiry,
    RefreshTokenRepository.create, App.utcNow, App.uuid4, Program.bind_def, Program.bind_assoc,
    Program.pure_def, Program.ret_bind, hashRefreshToken_text, Program.ofExcept_ok]
  refine wp_drawn hp rfl (fun _ => id) (fun _ _ _ _ _ h => (exec_utcNow h).2.2)
    fun w₁ now _ h₁ hnow => ?_
  refine wp_drawn hp rfl (fun _ => id) (fun _ _ _ _ _ h => (exec_uuid4 h).2.2)
    fun w₂ jti _ h₂ hjti => ?_
  refine wp_drawn hp rfl (fun _ => id) (fun _ _ _ _ _ h => (exec_tokenUrlsafe h).2.2)
    fun w₃ token _ h₃ _ => ?_
  refine wp_drawn hp rfl (fun _ => id) (fun _ _ _ _ _ h => (exec_utcNow h).2.2)
    fun w₄ time _ h₄ htime => ?_
  obtain ⟨e₁, he₁, hop₁, g₁, g₁', hnow⟩ := hnow
  obtain ⟨e₂, he₂, hop₂, g₂, g₂', hjti⟩ := hjti
  obtain ⟨e₄, he₄, hop₄, g₄, g₄', htime⟩ := htime
  obtain ⟨rfl, -⟩ := exec_utcNow hnow
  obtain ⟨rfl, -⟩ := exec_uuid4 hjti
  obtain ⟨rfl, -⟩ := exec_utcNow htime
  have honward := ((h₁.trans h₂).trans h₃).trans h₄
  refine wp_add (by simp [Table.Link]) (by simp) hp (fun _ _ => rfl) (fun _ _ => rfl)
    (fun n now k hk => ?_) fun w₅ l₅ row hinv h₅ hp₅ hissued => ?_
  · obtain rfl : k = .primary .users user.id := by
      simpa [Table.references, RefreshTokenRepository.draft] using hk
    exact honward.lasts _ (LockKey.not_link (by decide)) huser
  · obtain ⟨e, he, n, now', hrow⟩ := hissued
    have hlater := (h₃.trans h₄).trans h₅
    refine h w₅ l₅ _ hinv (honward.trans h₅).weaken hp₅ ⟨⟨e₁, (h₂.trans hlater).mem he₁, e₂,
      hlater.mem he₂, hop₁, hop₂, rfl⟩, ⟨e, he, _, hrow, rfl, rfl, rfl, rfl, ?_⟩, rfl, rfl⟩
    exact ⟨e₄, h₅.mem he₄, hop₄, rfl⟩

/-- The row of a user is found, and stays. -/
theorem wp_lastLogin {user : User} {f : User → App α} (hp : l.pending = [])
    (huser : u.shared.state.hasKey (.primary .users user.id))
    (h : ∀ w l' row, AccountInv w → Onward (fun _ => True) i u w → l'.pending = [] →
      (accountProtocol env).wp i req Q (f row) l' w) :
    (accountProtocol env).wp i req Q ((UserRepository.updateLastLogin user).bind f) l u := by
  simp only [UserRepository.updateLastLogin, App.utcNow, Program.bind_def, Program.bind_assoc]
  have hlasts : ¬ (LockKey.primary .users user.id).table.Link := LockKey.not_link (by decide)
  refine wp_drawn hp rfl (fun _ => id) (fun _ _ _ _ _ h => (exec_utcNow h).2.2)
    fun w₁ now _ h₁ _ => ?_
  refine wp_issue (o := .updateLastLoginAt user.id now) (Session.founded_nil hp)
    fun v₂ c w₂ l₂ h₂ => ?_
  have hkey := hasKey_user.mp (h₂.later.1.allowed.lasts _ hlasts (h₁.lasts _ hlasts huser))
  rw [← Session.view_of_nil hp] at hkey
  obtain ⟨rfl, hp₂⟩ := exec_updateLastLoginAt hkey h₂.result
  rw [hp, List.nil_append] at hp₂
  simp only [App.flushOne, if_true, Program.pure_def, Program.ret_bind]
  refine wp_issue (o := .commit) (fun p hmem => ?_) fun v₃ _ w₃ l₃ h₃ => ?_
  · rw [hp₂, List.mem_singleton] at hmem
    exact hmem ▸ trivial
  obtain ⟨-, rfl⟩ := exec_commit h₃.result
  have honward := (h₁.weaken.trans (h₂.onward trivial)).trans (h₃.onward trivial)
  refine wp_reload rfl (by simp [Table.Link]) (honward.lasts _ hlasts huser)
    fun w₄ l₄ row hinv h₄ hp₄ _ _ => ?_
  exact h w₄ l₄ row hinv (honward.trans h₄.weaken) hp₄

theorem LoginPost.onward {P : Entry (machine env) Request → Prop} {email password : String}
    {out : Except Error Response} (h : LoginPost env email password i out w)
    (hw : Onward P i w w') :
    LoginPost env email password i out w' := by
  refine h.imp_left fun h => ⟨h.1, ?_⟩
  obtain ⟨-, e, he, hend⟩ := h
  refine ⟨e, hw.head he, hend.imp_right fun hfound => ?_⟩
  obtain ⟨user, huser, hemail, hend⟩ := hfound
  refine ⟨user, huser, hemail, hend.imp_right fun hactive => hactive.imp_right fun hok => ?_⟩
  obtain ⟨hactive, hverify, response, hout, hto⟩ := hok
  exact ⟨hactive, hverify, response, hout, hto.mono fun _ he => hw.mem he⟩

theorem wp_loginEnds {email password : String} (hown : u.own i = []) :
    (accountProtocol env).wp i req (fun out l w => l.pending = [] ∧
      LoginPost env email password i out w)
      (call env (.login email password)) {} u := by
  simp only [call, login, UserRepository.getByEmail, Program.map_def, Program.bind_def,
    Program.bind_assoc, App.requireData_bind]
  split
  case isFalse hstorable => exact fun w _ => ⟨rfl, .inr ⟨by simpa using hstorable, rfl⟩⟩
  rename_i hstorable
  refine wp_reading rfl fun v w l₁ hissued hp₁ => ?_
  have hhead : ∃ e, (w.own i).head? = some e ∧ e.before = v.shared :=
    ⟨_, by rw [hissued.own, hown]; rfl, rfl⟩
  have hreached : ∀ {P out w' w'' l'}, Onward P i w w' → (accountProtocol env).Later i l' w' w'' →
      LoginEnd env email password v.shared.state i out w' →
      LoginPost env email password i out w'' := by
    intro P out w' w'' l' hw hlater hend
    obtain ⟨e, he, hbefore⟩ := hhead
    have hpost : LoginPost env email password i out w' :=
      .inl ⟨hstorable, e, hw.head he, hbefore ▸ hend⟩
    exact hpost.onward (hlater.onward (P := P))
  have hfail : ∀ {a error},
    (∀ actor, a.actorUserId = some actor → w.shared.state.hasKey (.primary .users actor)) →
      a.organizationId = none →
      (∀ w', LoginEnd env email password v.shared.state i (.error error) w') →
      (accountProtocol env).wp i req (fun out l w => l.pending = [] ∧
        LoginPost env email password i out w)
        ((AuditLogRepository.record a).bind fun _ => .raise error) l₁ w := by
    intro a error hactor horg hend
    refine wp_recorded hp₁ hactor horg fun w₂ l₂ _ _ h₂ hp₂ w' hlater => ?_
    exact ⟨hp₂, hreached h₂ hlater (hend w₂)⟩
  rw [Session.object_users fun _ => rfl, List.map_id']
  have hlookup := hissued.later.2.1.sound.schema.filter_key (τ := .users)
    (k := .email (env.lower email))
    (p := fun user : User => user.email = env.lower email) fun user huser => by
      simp only [decide_eq_true_eq] at huser
      simp [Table.keys, huser]
  cases hlookup with
  | inl hnone =>
      rw [show v.shared.state.users.filter (·.email = env.lower email) = [] from hnone]
      simp only [App.scalarOneOrNone, Program.pure_def, Program.ret_bind, Program.bind_assoc,
        Program.raise_bind]
      refine hfail (by simp) rfl fun w' => .inl ⟨fun user huser hemail => ?_, rfl⟩
      exact List.filter_eq_nil_iff.mp hnone user huser (by simpa using hemail)
  | inr hsome =>
      obtain ⟨user, huser, hemail, hrows⟩ := hsome
      have hemail : user.email = env.lower email := by simpa using hemail
      rw [show v.shared.state.users.filter (·.email = env.lower email) = [user] from hrows]
      have hkey : w.shared.state.hasKey (.primary .users user.id) := by
        rw [hissued.state rfl]
        exact hasKey_user.mpr ⟨user, huser, rfl⟩
      have hactor : ∀ actor, some user.id = some actor →
        w.shared.state.hasKey (.primary .users actor) :=
        fun actor hactor => Option.some.inj hactor ▸ hkey
      simp only [App.scalarOneOrNone, Program.pure_def, Program.ret_bind]
      split
      · rename_i hinactive
        simp only [Program.bind_assoc, Program.raise_bind]
        have hinactive : user.isActive = false := by simpa using hinactive
        exact hfail hactor rfl fun w' => .inr ⟨user, huser, hemail, .inl ⟨hinactive, rfl⟩⟩
      · rename_i hactive
        have hactive : user.isActive = true := by simpa using hactive
        split
        · rename_i hwrong
          simp only [Program.bind_assoc, Program.raise_bind]
          have hwrong : env.verifyPassword password user.passwordHash = false := by
            simpa using hwrong
          exact hfail hactor rfl fun w' =>
            .inr ⟨user, huser, hemail, .inr (.inl ⟨hactive, hwrong, rfl⟩)⟩
        · rename_i hright
          have hright : env.verifyPassword password user.passwordHash = true := by
            simpa using hright
          simp only [Program.bind_assoc]
          have hlasts : ¬ (LockKey.primary .users user.id).table.Link :=
            LockKey.not_link (by decide)
          refine wp_lastLogin hp₁ hkey fun w₂ l₂ _ _ h₂ hp₂ => ?_
          have hkey₂ := h₂.lasts _ hlasts hkey
          refine wp_recorded hp₂ (fun actor hactor => Option.some.inj hactor ▸ hkey₂) rfl
            fun w₃ l₃ _ _ h₃ hp₃ => ?_
          refine wp_tokenPair hp₃ (h₃.lasts _ hlasts hkey₂)
            fun w₄ l₄ response _ h₄ hp₄ hto w' hlater => ?_
          refine ⟨hp₄, hreached ((h₂.trans h₃.weaken).trans h₄) hlater
            (.inr ⟨user, huser, hemail, ?_⟩)⟩
          exact .inr (.inr ⟨hactive, hright, response, rfl, hto⟩)

/-- The statements of a registration, with what is raised about a taken email. -/
theorem register_eq {email : String} (hfits : UserRepository.emailFits (env.lower email) = true)
    (password : String) : register env email password = (hashPassword password).bind fun hash =>
      (App.issue (.insert .users (UserRepository.draft (env.lower email) hash))).bind fun
        | none => App.rollback.bind fun _ => (AuditLogRepository.record
            { action := .userRegistrationFailed
              targetType := some .user
              eventMetadata := some [("attempted_email", .str email),
                ("reason", .str "duplicate_email")] }).bind
            fun _ => .raise (.emailAlreadyExists "Unable to register with the provided details.")
        | some user => App.commit.bind fun _ => (App.refresh .users user.id).bind fun user =>
            (AuditLogRepository.record
              { action := .userRegistered
                actorUserId := some user.id
                targetType := some .user
                targetId := some user.id }).bind fun _ =>
                .ret ⟨user.id, user.email, user.createdAt⟩ := by
  refine congrArg (Program.op _) (funext fun hash => ?_)
  simp only [Program.bind_def, Program.ret_bind, UserRepository.createUser_of_fits hfits]
  refine congrArg (Program.op _) (funext fun row => ?_)
  cases row with
  | none =>
      refine congrArg (Program.op _) (funext fun _ => ?_)
      exact Program.bind_assoc (AuditLogRepository.record _) (fun _ => .raise _) _
  | some user =>
      refine congrArg (Program.op _)
        (funext fun _ => congrArg (Program.op _) (funext fun row => ?_))
      cases row <;> rfl

/-- How a registration ends: its INSERT has made an account, or the email was taken and it
has changed no user. -/
def RegisterEnd (env : Environment) (email : String) (i : Nat) (out : Except Error Response)
    (w : History env Request) : Prop :=
  (∃ response, out = .ok (.registered response) ∧
    w.shared.state.hasKey (.primary .users response.id) ∧
      response.email = env.lower email ∧
      ∃ e ∈ w.own i, Stmt.Registers e.op e.result ∧ response.id = env.uuid e.step) ∨
    (out = .error (.emailAlreadyExists "Unable to register with the provided details.") ∧
      w.shared.state.hasKey (.email (env.lower email)) ∧ ∀ e ∈ w.own i, e.SparesUsers)

/-- An address that the column does not take is refused as such. -/
def RegisterPost (env : Environment) (email : String) (i : Nat) (out : Except Error Response)
    (w : History env Request) : Prop :=
  (UserRepository.emailFits (env.lower email) = true ∧ RegisterEnd env email i out w) ∨
    (UserRepository.emailFits (env.lower email) = false ∧ out = .error .dataError ∧
      ∀ e ∈ w.own i, e.SparesUsers)

theorem RegisterEnd.onward {email : String} {out : Except Error Response}
    (h : RegisterEnd env email i out w) (hw : Onward Lib.Entry.SparesUsers i w w') :
    RegisterEnd env email i out w' := by
  cases h with
  | inl h =>
      obtain ⟨response, hout, hkey, hemail, e, he, hinsert⟩ := h
      exact .inl ⟨response, hout, hw.lasts _ (LockKey.not_link (by decide)) hkey, hemail, e,
        hw.mem he, hinsert⟩
  | inr h =>
      exact .inr ⟨h.1, hw.lasts _ (LockKey.not_link_email _) h.2.1, hw.all h.2.2⟩

theorem RegisterPost.onward {email : String} {out : Except Error Response}
    (h : RegisterPost env email i out w) (hw : Onward Lib.Entry.SparesUsers i w w') :
    RegisterPost env email i out w' :=
  h.imp (fun h => ⟨h.1, h.2.onward hw⟩) fun h => ⟨h.1, h.2.1, hw.all h.2.2⟩

theorem Issued.rollback {r : Unit} (h : Issued i req .rollback r l l' u v w) :
    Onward Lib.Entry.SparesUsers i u w ∧ l'.pending = [] := by
  obtain ⟨hshared, rfl⟩ := exec_rollback h.result
  have hstate : w.shared.state = v.shared.state := by
    rw [hshared]
    rfl
  exact ⟨h.onward ⟨id, congrArg Tables.users hstate⟩, rfl⟩

/-- A registration is refused for its email only: the id is new. -/
theorem Issued.emailTaken {email hash : String} (hp : l.pending = [])
    (h : Issued i req (.insert .users (UserRepository.draft email hash)) none l l' u v w) :
    w.shared.state.hasKey (.email email) := by
  rw [h.state rfl]
  obtain ⟨hrefused, -⟩ := exec_insert_none h.result
  rw [Session.view_of_nil hp] at hrefused
  by_contra hfree
  refine hrefused ⟨fun k hk => ?_, fun k hk => absurd hk List.not_mem_nil⟩
  cases List.mem_cons.mp hk with
  | inl hid => exact hid ▸ h.later.2.1.sound.fresh.undrawn _ _ (Nat.le_refl _)
  | inr hemail => exact List.mem_singleton.mp hemail ▸ hfree

theorem wp_registerEnd {email password : String} (hown : u.own i = [])
    (hfits : UserRepository.emailFits (env.lower email) = true) :
    (accountProtocol env).wp i (.register email password)
      (fun out l w => l.pending = [] ∧ RegisterEnd env email i out w)
      (call env (.register email password)) {} u := by
  simp only [call, register_eq hfits, hashPassword, App.rollback, App.commit, Program.map_def,
    Program.bind_assoc]
  refine wp_drawn rfl rfl (fun _ => id) (fun _ _ _ _ _ h => (exec_hashPassword h).2.2)
    fun w₁ hash _ h₁ hdrawn => ?_
  obtain ⟨e, -, -, g, g', hdrawn⟩ := hdrawn
  obtain ⟨rfl, -⟩ := exec_hashPassword hdrawn
  refine wp_issue (Session.founded_nil rfl) fun v₂ row w₂ l₂ h₂ => ?_
  cases row with
  | none =>
      obtain ⟨-, hp₂⟩ := exec_insert_none h₂.result
      have hkey := h₂.emailTaken rfl
      have honward := h₁.trans (h₂.spares rfl fun hsome => hsome rfl)
      simp only [Program.bind_assoc, Program.raise_bind]
      refine wp_issue (Session.founded_nil hp₂) fun v₃ _ w₃ l₃ h₃ => ?_
      obtain ⟨h₃, hp₃⟩ := h₃.rollback
      refine wp_recorded hp₃ (by simp) rfl fun w₄ l₄ _ _ h₄ hp₄ w' hlater => ⟨hp₄, ?_⟩
      have hafter := (h₃.trans h₄).trans hlater.onward
      refine .inr ⟨rfl, hafter.lasts _ (LockKey.not_link_email _) hkey, ?_⟩
      exact (honward.trans hafter).all (by simp [hown])
  | some user =>
      obtain ⟨huser, hp₂⟩ := exec_insert_some h₂.result
      have hid : user.id = env.uuid v₂.trace.length := congrArg User.id huser
      have hmem := (World.mem_own.mp h₂.mem_own).1
      have haccount : Account user (entry i (.register email password) (.insert .users
          (UserRepository.draft (env.lower email) (env.hashPassword e.step password)))
          (some user) v₂ w₂) :=
        ⟨email, password, e.step, rfl, Option.some_ne_none user, hid, congrArg User.email huser,
          congrArg User.passwordHash huser⟩
      simp only [Program.bind_assoc]
      refine wp_issue (fun p hp => ?_) fun v₃ _ w₃ l₃ h₃ => ?_
      · rw [hp₂, List.nil_append, List.mem_singleton] at hp
        exact hp ▸ ⟨congrArg User.isActive huser, _, hmem, haccount⟩
      obtain ⟨hshared, rfl⟩ := exec_commit h₃.result
      have hkey : w₃.shared.state.hasKey (.primary .users user.id) := by
        rw [hshared, hp₂]
        exact hasKey_user.mpr ⟨user, List.mem_append_right _ (List.mem_singleton_self _), rfl⟩
      refine wp_reload rfl (by simp [Table.Link]) hkey fun w₄ l₄ row hinv₄ h₄ hp₄ hrow hrowId => ?_
      have hrowId : row.id = user.id := by simpa [Table.keys, eq_comm] using hrowId
      have honward : Onward (fun _ => True) i w₂ w₄ := (h₃.onward trivial).trans h₄.weaken
      have hown₄ := honward.mem h₂.mem_own
      have hrowKey : w₄.shared.state.hasKey (.primary .users row.id) :=
        hasKey_user.mpr ⟨row, hrow, rfl⟩
      obtain ⟨email', password', -, hreq, -, -, hemail, -⟩ :=
        hinv₄.account_of_step hrow (World.mem_own.mp hown₄).1 (hrowId.trans hid)
      obtain ⟨rfl, -⟩ := Request.register.inj hreq
      refine wp_recorded hp₄ (fun actor hactor => Option.some.inj hactor ▸ hrowKey) rfl
        fun w₅ l₅ _ _ h₅ hp₅ w' hlater => ⟨hp₅, .inl ⟨_, rfl, ?_, hemail, ?_⟩⟩
      · exact (h₅.trans hlater.onward).lasts _ (LockKey.not_link (by decide)) hrowKey
      · exact ⟨_, (h₅.trans hlater.onward).mem hown₄, Option.some_ne_none user, hrowId.trans hid⟩

theorem wp_registerEnds {email password : String} (hown : u.own i = []) :
    (accountProtocol env).wp i (.register email password)
      (fun out l w => l.pending = [] ∧ RegisterPost env email i out w)
      (call env (.register email password)) {} u := by
  cases hfits : UserRepository.emailFits (env.lower email) with
  | true =>
      exact (wp_registerEnd hown hfits).mono fun _ _ _ _ _ h => ⟨h.1, .inl ⟨hfits, h.2⟩⟩
  | false =>
      simp only [call, register, UserRepository.createUser_of_not_fits hfits, hashPassword,
        Program.map_def, Program.bind_def, Program.bind_assoc]
      refine wp_drawn rfl rfl (fun _ => id) (fun _ _ _ _ _ h => (exec_hashPassword h).2.2)
        fun w₁ hash _ h₁ _ w' hlater => ⟨rfl, .inr ⟨hfits, rfl, ?_⟩⟩
      exact (h₁.trans hlater.onward).all (by simp [hown])

def ServePost (env : Environment) (req : Request) (i : Nat) :
    Protocol.Post (machine env) Request Error Response :=
  fun out _ w => match req with
    | .register email _ => RegisterPost env email i out w
    | .login email password => LoginPost env email password i out w
    | _ => True

/-- The rollback that ends a call changes nothing. -/
theorem wp_closed {P : Except Error Response → History env Request → Prop}
    (hP : ∀ {out w w'}, P out w → Onward Lib.Entry.SparesUsers i w w' → P out w')
    (h : (accountProtocol env).wp i req (fun out l w => l.Founded w ∧ P out w) (call env req)
      {} u) :
    (accountProtocol env).wp i req (fun out _ w => P out w) (serve env req) {} u := by
  refine Protocol.wp_ensure (h.mono fun out l w _ _ hpost => ?_) fun _ hpost hlater =>
    hP hpost hlater.onward
  refine wp_issue (o := .rollback) (f := .ret) hpost.1 fun v _ w' l' hissued w'' hlater => ?_
  exact hP hpost.2 (hissued.rollback.1.trans hlater.onward)

theorem modest_of_uses {τs : List Table} {as : List AuditAction} {p : App α} (h : Uses τs as p)
    (hτ : .users ∉ τs) : p.All Stmt.Modest := by
  refine h.mono fun o ho => ?_
  cases o with
  | insert τ draft =>
      cases τ
      case users => exact absurd ho hτ
      all_goals trivial
  | updateIsActive _ _ => exact absurd ho hτ
  | _ => trivial

theorem wp_serveModest (hp : (call env req).All Stmt.Modest) :
    (accountProtocol env).wp i req (fun _ _ _ => True) (serve env req) {} u :=
  wp_closed (P := fun _ _ => True) (fun _ _ => trivial)
    ((wp_modest hp (Session.founded_nil rfl)).mono fun _ _ _ _ _ h => ⟨h, trivial⟩)

theorem serve_accounts (env : Environment) :
    (accountProtocol env).Serves (ServePost env) (serve env) := by
  intro req i u hu hnew
  have hown : u.own i = [] := List.filter_eq_nil_iff.mpr fun e he => by simp [hnew e he]
  by_cases hτ : .users ∈ req.tables
  · cases req with
    | register email password =>
        refine wp_closed (fun h hw => h.onward hw)
          ((wp_registerEnds hown).mono fun _ _ _ _ _ h => ?_)
        exact ⟨Session.founded_nil h.1, h.2⟩
    | login email password =>
        refine wp_closed (fun h hw => h.onward hw) ((wp_loginEnds hown).mono fun _ _ _ _ _ h => ?_)
        exact ⟨Session.founded_nil h.1, h.2⟩
    | setIsActive id active =>
        refine wp_closed (P := fun _ _ => True) (fun _ _ => trivial) ?_
        simp only [call, setIsActive, App.commit, Program.map_def, Program.bind_def,
          Program.bind_assoc]
        refine wp_issue (Session.founded_nil rfl) fun v _ w l hissued => ?_
        have hfounded : l.Founded w := by
          refine (Session.founded_nil rfl).exec hissued.exec fun p hp => ?_
          obtain rfl : p = .setIsActive id active := hp
          exact ⟨_, (World.mem_own.mp hissued.mem_own).1, id, active, rfl⟩
        refine wp_issue hfounded fun v' _ w' l' hissued' w'' hlater => ⟨?_, trivial⟩
        exact Session.founded_nil (congrArg Session.pending (exec_commit hissued'.result).2)
    | _ => simp [Request.tables] at hτ
  · refine (wp_serveModest (modest_of_uses (call_uses req) hτ)).mono fun out l w _ _ _ => ?_
    cases req
    case register | login => simp [Request.tables] at hτ
    all_goals trivial

namespace Calls
variable {p q : Calls env} {j : Nat}

/-- Call `i` has come to this end. -/
def Done (p : Calls env) (i : Nat) (req : Request) (out : Except Error Response) : Prop :=
  ∃ th, p.threads[i]? = some th ∧ th.request = req ∧ th.outcome = some out

theorem done_iff {out : Except Error Response} :
    p.Done i req out ↔
      p.threads[i]?.map (fun th => (th.request, th.outcome)) = some (req, some out) := by
  simp [Done]

instance (p : Calls env) (i : Nat) (req : Request) (out : Except Error Response) :
    Decidable (p.Done i req out) :=
  decidable_of_iff _ done_iff.symm

/-- Call `i` is a registration of the address. -/
def Registers (p : Calls env) (i : Nat) (address : String) : Prop :=
  ∃ th email password, p.threads[i]? = some th ∧ th.request = .register email password ∧
  env.lower email = address

/-- A run in which every account has its owner. -/
structure Accounted (p : Calls env) : Prop where
  kept : (accountProtocol env).Kept (ServePost env) p
  owned : p.Owned

theorem Accounted.reaches (h : p.Accounted) (hr : Reaches (serve env) p q) : q.Accounted :=
  ⟨h.kept.reaches (serve_accounts env) hr, hr.owned h.owned⟩

theorem Accounted.lasts (h : p.Accounted) (hr : Reaches (serve env) p q) :
    p.tables.Lasts q.tables :=
  h.kept.across (serve_accounts env) hr (E :=
    fun (w w' : History env Request) => w.shared.state.Lasts w'.shared.state)
      (fun _ _ _ hkey => hkey) (fun h h' k hk hkey => h' k hk (h k hk hkey)) fun h => h

theorem Accounted.post (h : p.Accounted) {out : Except Error Response} (hdone : p.Done i req out) :
    ServePost env req i out {} p.world := by
  obtain ⟨th, hth, rfl, hout⟩ := hdone
  have hpost := h.kept.outcome hth (Thread.code_of_outcome hout)
  exact hpost

/-- A registration succeeds for an address that the column takes. -/
theorem Accounted.fits (h : p.Accounted) {email password : String} {response : RegisterResponse}
    (hdone : p.Done i (.register email password) (.ok (.registered response))) :
    UserRepository.emailFits (env.lower email) = true ∧
      RegisterEnd env email i (.ok (.registered response)) p.world := by
  cases h.post hdone with
  | inl hend => exact hend
  | inr hrefused => cases hrefused.2.1

theorem Accounted.registered (h : p.Accounted) {email password : String} {response : Response}
    (hdone : p.Done i (.register email password) (.ok response)) :
    ∃ r, response = .registered r := by
  cases h.post hdone with
  | inr hrefused => cases hrefused.2.1
  | inl hend =>
      cases hend.2 with
      | inr herror => cases herror.1
      | inl hok =>
          obtain ⟨r, hout, -⟩ := hok
          exact ⟨r, Except.ok.inj hout⟩

theorem Accounted.owner (h : p.Accounted) {user : User} (huser : user ∈ p.tables.users) :
    ∃ e ∈ p.world.trace, Account user e ∧ p.Registers e.pid user.email := by
  obtain ⟨e, he, haccount⟩ := h.kept.inv.account user huser
  obtain ⟨th, hth, hreq⟩ := h.owned e he
  obtain ⟨email, password, n, hregister, -, -, hemail, -⟩ := id haccount
  exact ⟨e, he, haccount, th, email, password, hth, hreq.trans hregister, hemail.symm⟩

/-- A registration that has failed has inserted nobody. -/
theorem Accounted.failed (h : p.Accounted) {email password : String} {error : Error}
    (hdone : p.Done i (.register email password) (.error error)) :
    ((UserRepository.emailFits (env.lower email) = true ∧
        error = .emailAlreadyExists "Unable to register with the provided details." ∧
        p.tables.hasKey (.email (env.lower email))) ∨
      (UserRepository.emailFits (env.lower email) = false ∧ error = .dataError)) ∧
    ∀ e ∈ p.world.own i, e.SparesUsers := by
  cases h.post hdone with
  | inr hrefused =>
      obtain ⟨hfits, hout, hspares⟩ := hrefused
      exact ⟨.inr ⟨hfits, Except.error.inj hout⟩, hspares⟩
  | inl hend =>
      obtain ⟨hfits, hend⟩ := hend
      cases hend with
      | inl hok =>
          obtain ⟨_, hout, -⟩ := hok
          cases hout
      | inr herror =>
          obtain ⟨hout, hkey, hspares⟩ := herror
          exact ⟨.inl ⟨hfits, Except.error.inj hout, hkey⟩, hspares⟩

/-- The tables that the lookup of a login finds. -/
theorem Accounted.login (h : q.Accounted) (hr : Reaches (serve env) q p) {email password : String}
    {out : Except Error Response} (hj : q.threads.length ≤ j)
    (hdone : p.Done j (.login email password) out)
    (hstorable : App.storable (env.lower email) = true) :
    ∃ q₁ : Calls env, Reaches (serve env) q q₁ ∧ Reaches (serve env) q₁ p ∧
      LoginEnd env email password q₁.tables j out p.world := by
  have hpost : LoginPost env email password j out p.world := (h.reaches hr).post hdone
  obtain ⟨-, e, he, hend⟩ := hpost.resolve_right fun hrefused => by
    rw [hstorable] at hrefused
    cases hrefused.1
  obtain ⟨hmem, rfl⟩ := World.mem_own.mp (List.mem_of_mem_head? he)
  have hnew : e ∉ q.world.trace := fun hold => absurd (h.kept.owner e hold) (Nat.not_lt_of_le hj)
  obtain ⟨q₁, q₂, hq₁, hstep, hq₂, hbefore, -⟩ := (hr.entry hmem).resolve_left hnew
  rw [← hbefore] at hend
  exact ⟨q₁, hq₁, hq₂.head hstep, hend⟩

end Calls

end SecureIam
