import SecureIam.Access.Permissions
import SecureIam.Accounts.Walk

/-!
What `refresh` does when it runs alone: eight ways to end, and the tables that it commits
on the way.
-/
namespace SecureIam
open Lib App AuthService AuditLogRepository
variable {env : Environment} {t : Tables} {before : List Tables} {s : Solo} {x : String}

namespace Tables

/-- An event is recorded. -/
def recorded (t : Tables) (event : AuditRecord) (id : Uuid) (now : Time) : Tables :=
  t.insert .auditLogs ((AuditLogRepository.draft event).row id now)

@[simp] theorem recorded_refreshTokens (t : Tables) (event : AuditRecord) (id : Uuid) (now : Time) :
    (t.recorded event id now).refreshTokens = t.refreshTokens := rfl

/-- The only token with the hash of the presented string. -/
structure Presents (t : Tables) (env : Environment) (x : String) (token : RefreshToken) : Prop where
  mem : token ∈ t.refreshTokens
  hash : token.tokenHash = env.sha256 x
  only : ∀ r ∈ t.refreshTokens, r.tokenHash = env.sha256 x → r = token

end Tables

/-- The event of an unknown string. -/
def unknownToken : AuditRecord where
  action := .refreshTokenRejected
  eventMetadata := some [("reason", .str "unknown_token")]

/-- The events in which a user acts on its own account. -/
def ownEvent (action : AuditAction) (userId : Uuid) : AuditRecord where
  action := action
  actorUserId := some userId
  targetType := some .user
  targetId := some userId

/-- The outcome of a refresh that takes the steps from `n` to `n'`, and the committed
tables, the last ones first. -/
inductive Renewal (env : Environment) (t : Tables) (x : String) (n n' : Nat) :
    Except Error TokenResponse → List Tables → Prop
  | ambiguous {T T' : RefreshToken} (hT : T ∈ t.refreshTokens) (hT' : T' ∈ t.refreshTokens)
      (hne : T ≠ T') (hash : T.tokenHash = env.sha256 x) (hash' : T'.tokenHash = env.sha256 x) :
      Renewal env t x n n' (.error .multipleResultsFound) [t]
  | unknown (hnone : ∀ T ∈ t.refreshTokens, T.tokenHash ≠ env.sha256 x) (id : Uuid) (now : Time) :
      Renewal env t x n n' (.error invalidRefreshToken) [t.recorded unknownToken id now, t]
  | dead {T : RefreshToken} (hT : t.Presents env x T) (hrevoked : T.revokedAt ≠ none)
      (hlast : T.replacedBy = none) (id : Uuid) (now : Time) :
      Renewal env t x n n' (.error invalidRefreshToken)
        [t.recorded (rejected T "revoked_token") id now, t]
  | reused {T : RefreshToken} {next : Uuid} (hT : t.Presents env x T)
      (hrevoked : T.revokedAt ≠ none) (hnext : T.replacedBy = some next)
      (hdead : ∀ L, t.leaf RefreshTokenRepository.maxFamilyWalkSteps next = some L →
        L.revokedAt ≠ none) (id : Uuid) (now : Time) :
      Renewal env t x n n' (.error invalidRefreshToken)
        [t.recorded (reuseDetected T true) id now, t]
  | familyRevoked {T L : RefreshToken} {next : Uuid} (hT : t.Presents env x T)
      (hrevoked : T.revokedAt ≠ none) (hnext : T.replacedBy = some next)
      (hleaf : t.leaf RefreshTokenRepository.maxFamilyWalkSteps next = some L)
      (hlive : L.revokedAt = none) {m : Nat} (hm : n ≤ m ∧ m < n') {t₁ t₂ : Tables}
      (ht₁ : t₁ = (Write.setRevokedAt L.id (env.clock m)).apply t) (id id' : Uuid) (now now' : Time)
      (ht₂ : t₂ = t₁.recorded (reuseDetected T false) id now) :
      Renewal env t x n n' (.error invalidRefreshToken) [t₂.recorded (familyRevoked T L) id' now',
        t₂, t₁, t]
  | expired {T : RefreshToken} (hT : t.Presents env x T) (hlive : T.revokedAt = none)
      (hexpired : T.expiresAt ≤ env.clock (n + 1)) (id : Uuid) (now : Time) :
      Renewal env t x n n' (.error invalidRefreshToken)
        [t.recorded (rejected T "expired_token") id now, t]
  | ownerless {T : RefreshToken} (hT : t.Presents env x T) (hlive : T.revokedAt = none)
      (hvalid : env.clock (n + 1) < T.expiresAt) (howner : ¬ t.Active T.userId) (id : Uuid)
      (now : Time) :
      Renewal env t x n n' (.error invalidRefreshToken)
        [t.recorded (rejected T "inactive_or_deleted_owner") id now, t]
  | rotated {T : RefreshToken} (hT : t.Presents env x T) (hlive : T.revokedAt = none)
      (hvalid : env.clock (n + 1) < T.expiresAt) (howner : t.Active T.userId) {k j m : Nat}
      (hk : n ≤ k ∧ k < n') (hj : n ≤ j ∧ j < n') (hm : n ≤ m ∧ m < n') {childId : Uuid}
      (hid : ∀ τ, ¬ t.hasKey (.primary τ childId)) {child : RefreshToken}
      (hchild : child = ⟨childId, T.userId, env.sha256 (env.token k),
        env.clock j + env.settings.refreshTokenTtlDays * Time.day, none, none⟩)
      {t₁ : Tables} (ht₁ : t₁ = t.rotated T (env.clock m) child) (accessToken : String) (id : Uuid)
      (now : Time) : Renewal env t x n n'
        (.ok ⟨accessToken, env.token k, "bearer", accessTokenTtlSeconds env⟩)
        [t₁.recorded (ownEvent .refreshTokenRotated T.userId) id now, t₁, t]

theorem recorded_ends {a : AuditRecord} (h : s.Settled env t before)
    (href : ∀ k ∈ a.references, t.hasKey k) :
    ∃ row id now s', Ends env (record a) s (.ok row) s' ∧ s'.Settled env (t.recorded a id now)
      (t :: before) := by
  obtain ⟨s', hends, hsettled⟩ := ends_record h href
  exact ⟨_, _, _, s', hends, hsettled⟩

/-- An event is recorded, and an error raised. -/
theorem raise_recorded_ends {α : Type} {a : AuditRecord} (h : s.Settled env t before)
    (href : ∀ k ∈ a.references, t.hasKey k) (e : Error) :
    ∃ id now s', Ends env (do let _ ← record a; .raise e : App α) s (.error e) s' ∧
      s'.Settled env (t.recorded a id now) (t :: before) := by
  obtain ⟨row, id, now, s', hends, hsettled⟩ := recorded_ends h href
  exact ⟨id, now, s', hends.bind rfl, hsettled⟩

theorem owner_exists (ht : t.Schema) {T : RefreshToken} (hT : T ∈ t.refreshTokens) :
    t.hasKey (.primary .users T.userId) :=
  ht.references .refreshTokens T hT _ List.mem_cons_self

/-- An event about a user that exists. -/
theorem references_user {event : AuditRecord} {u : Uuid} (hactor : event.actorUserId = some u)
    (horg : event.organizationId = none) (hu : t.hasKey (.primary .users u)) :
    ∀ k ∈ event.references, t.hasKey k := by
  intro k hk
  simp only [AuditRecord.references, hactor, horg, Option.toList_some, Option.toList_none,
    List.map_cons, List.map_nil, List.append_nil, List.mem_singleton] at hk
  exact hk ▸ hu

section Refresh
variable {T : RefreshToken}

theorem handleRevokedToken_ends (h : s.Settled env t []) (hT : t.Presents env x T) {n : Nat}
    (hn : n ≤ s.step) (hrevoked : T.revokedAt ≠ none) :
    ∃ s' versions, Ends env (handleRevokedToken T) s (.ok ()) s' ∧
      Renewal env t x n s'.step (.error invalidRefreshToken) versions ∧ s'.Leaves env versions := by
  have howner := owner_exists h.schema hT.mem
  cases hnext : T.replacedBy with
  | none =>
      obtain ⟨row, id, now, s', hends, hsettled⟩ :=
        recorded_ends h (a := rejected T "revoked_token") (references_user rfl rfl howner)
      refine ⟨s', _, ?_, .dead hT hrevoked hnext id now, hsettled.leaves⟩
      rw [handleRevokedToken, if_pos hnext]
      exact hends.bind rfl
  | some next =>
      have hne : T.replacedBy ≠ none := hnext ▸ Option.some_ne_none next
      have hwalk : RefreshTokenRepository.revokeDescendants T =
          RefreshTokenRepository.walk RefreshTokenRepository.maxFamilyWalkSteps next := by
        rw [RefreshTokenRepository.revokeDescendants, hnext]
      rw [handleRevokedToken, if_neg hne, hwalk]
      cases RefreshTokenRepository.walk_ends h RefreshTokenRepository.maxFamilyWalkSteps next with
      | inl hdead =>
          obtain ⟨s₁, hends, hsettled, hdead⟩ := hdead
          obtain ⟨row, id, now, s', hrecord, hsettled'⟩ :=
            recorded_ends hsettled (a := reuseDetected T true) (references_user rfl rfl howner)
          exact ⟨s', _, hends.bind (hrecord.bind rfl), .reused hT hrevoked hnext hdead id now,
            hsettled'.leaves⟩
      | inr hlive =>
          obtain ⟨L, m, s₁, hleaf, hlive, hm, hends, hsettled⟩ := hlive
          have howner₁ := Write.hasKey_apply (.setRevokedAt L.id (env.clock m))
            (k := .primary .users T.userId) (LockKey.not_link (by decide)) howner
          obtain ⟨row, id, now, s₂, hrecord, hsettled₂⟩ :=
            recorded_ends hsettled (a := reuseDetected T false) (references_user rfl rfl howner₁)
          have howner₂ := Write.hasKey_apply
            (.insert .auditLogs ((AuditLogRepository.draft (reuseDetected T false)).row id now))
            (k := .primary .users T.userId) (LockKey.not_link (by decide)) howner₁
          obtain ⟨row', id', now', s', hrecord', hsettled'⟩ :=
            recorded_ends hsettled₂ (a := familyRevoked T L) (references_user rfl rfl howner₂)
          exact ⟨s', _, hends.bind (hrecord.bind (hrecord'.bind rfl)),
            .familyRevoked hT hrevoked hnext hleaf hlive
            ⟨hn.trans hm.1, hm.2.trans_le (hrecord.step_le.trans hrecord'.step_le)⟩ rfl id id' now
            now' rfl, hsettled'.leaves⟩

theorem getUser_ends (h : s.Settled env t before) (u : Uuid) :
    Ends env (UserRepository.getById u) s (.ok (t.users.find? (·.id = u))) s.touch := by
  have hlookup : Ends env _ _ _ _ := ends_lookup (τ := .users) (k := .primary .users u)
    (p := (·.id = u)) h.good.schema (by simp +contextual [Table.keys])
  rw [h.view] at hlookup
  exact hlookup

theorem rotate_ends (h : s.Settled env t []) (hT : t.Presents env x T) {n : Nat}
    (hn : s.step = n + 1) (hlive : T.revokedAt = none) :
    ∃ out s' versions, Ends env (rotate env T) s out s' ∧
      Renewal env t x n s'.step out versions ∧ s'.Leaves env versions := by
  have howner := owner_exists h.schema hT.mem
  have hclock : Ends env App.utcNow s (.ok (env.clock (n + 1))) s.next := hn ▸ rfl
  by_cases hexpired : T.expiresAt ≤ env.clock (n + 1)
  · obtain ⟨id, now, s', hends, hsettled⟩ := raise_recorded_ends (α := TokenResponse) h.next
      (a := rejected T "expired_token") (references_user rfl rfl howner) invalidRefreshToken
    refine ⟨_, s', _, hclock.bind ?_, .expired hT hlive hexpired id now, hsettled.leaves⟩
    rw [if_pos hexpired]
    exact hends
  · have hvalid := not_le.mp hexpired
    have hlookup := getUser_ends h.next T.userId
    have hactive := AuthorizationService.find?_active (u := T.userId) h.schema
    cases huser : (t.users.find? (·.id = T.userId)).filter (·.isActive) with
    | none =>
        obtain ⟨id, now, s', hends, hsettled⟩ := raise_recorded_ends (α := TokenResponse)
          h.next.touch
          (a := rejected T "inactive_or_deleted_owner") (references_user rfl rfl howner)
          invalidRefreshToken
        have hinactive : ¬ t.Active T.userId := by
          intro ha
          simp [huser, ha] at hactive
        refine ⟨_, s', _, hclock.bind ?_, .ownerless hT hlive hvalid hinactive id now,
          hsettled.leaves⟩
        rw [if_neg hexpired]
        refine hlookup.bind ?_
        rw [huser]
        exact hends
    | some user =>
        have ha : t.Active T.userId := hactive.mp (huser ▸ rfl)
        have hid : user.id = T.userId := by
          simpa using List.find?_some (Option.filter_eq_some_iff.mp huser).1
        have hsettled := h.next.touch
        generalize hs₁ : s.next.touch = s₁ at hlookup hsettled
        have hstep : n ≤ s₁.step := by
          rw [← hs₁]
          exact (hn ▸ n.le_succ : n ≤ s.step).trans ((s.step.le_succ).trans (Nat.le_succ _))
        have htoken : Ends env generateRefreshToken s₁ (.ok (env.token s₁.step)) s₁.next := rfl
        have hexpiry : Ends env (refreshTokenExpiry env) s₁.next
          (.ok (env.clock s₁.next.step + env.settings.refreshTokenTtlDays * Time.day))
          s₁.next.next := rfl
        obtain ⟨m, childId, s₂, hm, hfresh, hpair, hsettled₂⟩ :=
          RefreshTokenRepository.createRotationPair_ends hsettled.next.next hT.mem hlive
            (env.sha256 (env.token s₁.step))
            (env.clock s₁.next.step + env.settings.refreshTokenTtlDays * Time.day)
        obtain ⟨row, id, now, s₃, hrecord, hsettled₃⟩ :=
          recorded_ends hsettled₂ (a := ownEvent .refreshTokenRotated T.userId)
            (references_user rfl rfl howner)
        have haccess : ∃ accessToken, Ends env (createAccessToken env (toString user.id)) s₃
          (.ok accessToken)
            s₃.next.next := ⟨_, rfl⟩
        obtain ⟨accessToken, haccess⟩ := haccess
        have hend : m < s₃.next.next.step := hm.2.trans_le (hrecord.step_le.trans haccess.step_le)
        have hbegin : s₁.step + 2 ≤ m := hm.1
        refine ⟨_, s₃.next.next, _, hclock.bind ?_, .rotated (k := s₁.step) (j := s₁.step + 1)
          hT hlive hvalid ha
          ⟨hstep, ?_⟩ ⟨hstep.trans s₁.step.le_succ, ?_⟩
          ⟨hstep.trans ((Nat.le_add_right _ 2).trans hbegin), hend⟩
          hfresh rfl rfl accessToken id now, hsettled₃.next.next.leaves⟩
        rotate_left
        · omega
        · omega
        rw [if_neg hexpired]
        refine hlookup.bind ?_
        rw [huser]
        rw [← hid] at hrecord
        exact htoken.bind (hexpiry.bind (hpair.bind (hrecord.bind (haccess.bind rfl))))

/-- How the lookup by the hash ends. -/
theorem getByHash_ends (h : s.Settled env t before) (x : String) :
    ((∀ T ∈ t.refreshTokens, T.tokenHash ≠ env.sha256 x) ∧
      Ends env (RefreshTokenRepository.getByHash (env.sha256 x)) s (.ok none) s.touch) ∨
    (∃ T, t.Presents env x T ∧
      Ends env (RefreshTokenRepository.getByHash (env.sha256 x)) s (.ok (some T))
        s.touch) ∨
    ((∃ T ∈ t.refreshTokens, ∃ T' ∈ t.refreshTokens, T ≠ T' ∧ T.tokenHash = env.sha256 x ∧
        T'.tokenHash = env.sha256 x) ∧
      Ends env (RefreshTokenRepository.getByHash (env.sha256 x)) s
        (.error .multipleResultsFound)
        s.touch) := by
  have hselect : Ends env _ _ _ _ := ends_select (s := s) (τ := .refreshTokens)
    (q := fun t => t.refreshTokens.filter (·.tokenHash = env.sha256 x)) fun r hr =>
    (List.mem_filter.mp hr).1
  rw [h.view] at hselect
  have hmem : ∀ T, T ∈ t.refreshTokens.filter (·.tokenHash = env.sha256 x) ↔
      T ∈ t.refreshTokens ∧ T.tokenHash = env.sha256 x := by
    intro T
    rw [List.mem_filter, decide_eq_true_eq]
  cases hrows : t.refreshTokens.filter (·.tokenHash = env.sha256 x) with
  | nil =>
      refine .inl ⟨fun T hT hhash => ?_, ?_⟩
      · have hT' := (hmem T).mpr ⟨hT, hhash⟩
        simp [hrows] at hT'
      · rw [hrows] at hselect
        exact hselect.bind rfl
  | cons T rows =>
      have hT := (hmem T).mp (hrows ▸ List.mem_cons_self)
      rw [hrows] at hselect
      cases rows with
      | nil =>
          refine .inr (.inl ⟨T, ⟨hT.1, hT.2, fun r hr hhash => ?_⟩, hselect.bind rfl⟩)
          simpa [hrows] using (hmem r).mpr ⟨hr, hhash⟩
      | cons T' rows =>
          have hT' := (hmem T').mp (hrows ▸ List.mem_cons_of_mem _ List.mem_cons_self)
          refine .inr (.inr ⟨⟨T, hT.1, T', hT'.1, ?_, hT.2, hT'.2⟩, hselect.bind rfl⟩)
          have hnodup := (h.schema.nodup .refreshTokens).filter
            (·.tokenHash = env.sha256 x)
          rw [show (t.rows .refreshTokens).filter (·.tokenHash = env.sha256 x) =
            _ from hrows] at hnodup
          exact (List.pairwise_cons.mp hnodup).1 T' List.mem_cons_self

/-- `refresh`, alone. -/
theorem refresh_ends (h : s.Settled env t []) (x : String) : ∃ out s' versions,
    Ends env (refresh env x) s out s' ∧ Renewal env t x s.step s'.step out versions ∧
      s'.Leaves env versions := by
  cases getByHash_ends h x with
  | inl hnone =>
      obtain ⟨hnone, hlookup⟩ := hnone
      obtain ⟨id, now, s', hends, hsettled⟩ := raise_recorded_ends (α := TokenResponse) h.touch
        (a := unknownToken) (fun _ hk => nomatch hk) invalidRefreshToken
      exact ⟨_, s', _, hlookup.bind hends, .unknown hnone id now, hsettled.leaves⟩
  | inr hfound =>
      cases hfound with
      | inl hone =>
          obtain ⟨T, hT, hlookup⟩ := hone
          by_cases hlive : T.revokedAt = none
          · obtain ⟨out, s', versions, hends, hrenewal, hleaves⟩ := rotate_ends h.touch hT rfl hlive
            refine ⟨out, s', versions, hlookup.bind ?_, hrenewal, hleaves⟩
            simp only [ne_eq, hlive, not_true_eq_false, if_false]
            exact hends
          · obtain ⟨s', versions, hends, hrenewal, hleaves⟩ :=
              handleRevokedToken_ends h.touch hT s.step.le_succ hlive
            refine ⟨_, s', versions, hlookup.bind ?_, hrenewal, hleaves⟩
            simp only [ne_eq, hlive, not_false_eq_true, if_true]
            exact hends.bind rfl
      | inr hmany =>
          obtain ⟨⟨T, hT, T', hT', hne, hash, hash'⟩, hlookup⟩ := hmany
          exact ⟨_, s.touch, _, hlookup.raise, .ambiguous hT hT' hne hash hash', h.touch.leaves⟩

end Refresh

namespace Calls.Sound
variable {p p' : Calls env} {out : Except Error Response}

/-- A refresh that is served alone. -/
theorem refreshed (h : p.Sound) (hs : Served (serve env) p (.refresh x) out p') :
    ∃ out' n' versions,
    out = out'.map Response.tokens ∧ n' < p'.world.trace.length ∧
    Renewal env p.tables x p.world.trace.length n' out' versions ∧
      versions.head? = some p'.tables := by
  obtain ⟨out', s', versions, hends, hrenewal, hleaves⟩ := refresh_ends h.settled x
  have hcall : Ends env (call env (.refresh x)) (.start p.world.trace.length p.tables) _ s' :=
    hends.map Response.tokens
  obtain ⟨hout, hhead, hlength⟩ := h.served_leaves hcall hleaves hs
  exact ⟨out', s'.step, versions, hout, hlength ▸ s'.step.lt_succ_self, hrenewal, hhead⟩

/-- A refresh that is cut off. -/
theorem refresh_cut (h : p.Sound) {n : Nat} {w : History env Request}
    (hcut : p.Cut (.refresh x) n w) :
    ∃ out', ∃ s' : Solo, ∃ versions before, Renewal env p.tables x p.world.trace.length s'.step out'
      versions ∧
      s'.Leaves env versions ∧ w.commits p.threads.length = before.length ∧
        (w.shared.state :: before) <:+ versions := by
  obtain ⟨out', s', versions, hends, hrenewal, hleaves⟩ := refresh_ends h.settled x
  have hcall : Ends env (call env (.refresh x)) (.start p.world.trace.length p.tables) _ s' :=
    hends.map Response.tokens
  obtain ⟨before, hcommits, hversions⟩ := h.cut_leaves hcall hleaves hcut
  exact ⟨out', s', versions, before, hrenewal, hleaves, hcommits, hversions⟩

end Calls.Sound

end SecureIam
