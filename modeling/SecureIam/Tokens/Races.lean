import SecureIam.Tokens.Rotation

/-!
Revocations that race with a rotation. A logout writes what it read earlier, and a walk
that lost its leaf reads the object that its session has mapped before: either may
leave a token of the family unrevoked.
-/
namespace SecureIam
open Lib RefreshTokenRepository
variable {env : Environment} {p : Calls env} {i : Nat}
  {th : Thread (machine env) Request Error Response}

/-- What precedes an element of a list without repetitions. -/
theorem getElem?_of_infix {α : Type} {xs : List α} {a b : α} {n : Nat} (hn : xs.Nodup)
    (h : [a, b] <:+: xs) (hb : xs[n + 1]? = some b) : xs[n]? = some a := by
  obtain ⟨m, -, hm⟩ := List.infix_iff_getElem?.mp h
  have hmb : xs[1 + m]? = some b := hm 1 (by simp)
  have hlt := (List.getElem?_eq_some_iff.mp hmb).1
  have hmn : 1 + m = n + 1 := (List.getElem?_inj hlt hn).mp (hmb.trans hb.symm)
  obtain rfl : m = n := by omega
  simpa using hm 0 (by simp)

theorem Calls.Reachable.families_before (h : p.Reachable) {e : Entry (machine env) Request}
    (he : e ∈ p.world.trace) : Families (tokensOf e.before) := by
  obtain ⟨q, q', hq, -, -, hbefore, -⟩ := h.entry he
  exact hbefore ▸ hq.inv.families

theorem Calls.Reachable.families_after (h : p.Reachable) {e : Entry (machine env) Request}
    (he : e ∈ p.world.trace) : Families (tokensOf e.after) := by
  obtain ⟨q, q', hq, hs, -, -, hafter, -⟩ := h.entry he
  exact hafter ▸ (hq.reaches (.single hs)).inv.families

/-! Logout. -/

/-- The session of a token has ended: the token has no successor, and no token of its
family is left unrevoked. -/
structure SessionEnded (rows : List RefreshToken) (id : Uuid) : Prop where
  family : FamilyRevoked rows id
  unreplaced : ¬ Rotated rows id

instance (rows : List RefreshToken) (id : Uuid) : Decidable (Rotated rows id) :=
  inferInstanceAs (Decidable (∃ _ ∈ rows, _))

theorem Rotated.evolves {rows rows' : List RefreshToken} {id : Uuid} (h : Rotated rows id)
    (hrows : Families rows) (he : Evolves rows rows') : Rotated rows' id := by
  obtain ⟨r, hr, hid, hne⟩ := h
  obtain ⟨r', hr', hev⟩ := he.kept r hr
  refine ⟨r', hr', hev.id.trans hid, ?_⟩
  rw [hev.frozen (hrows.superseded r hr hne)]
  exact hne

/-- A logout that read the token as unrevoked ends the session if and only if the token
was not rotated by the time of the logout's UPDATE. -/
theorem logout_ends_session_iff {x : String} {T : RefreshToken} {e₀ : Entry (machine env) Request}
    (h : p.Reachable) (hth : p.threads[i]? = some th) (hreq : th.request = .logout x)
    (hout : th.outcome = some (.ok .done)) (he₀ : (p.world.own i)[0]? = some e₀)
    (hT : T ∈ tokensOf e₀.before) (hhash : T.tokenHash = env.sha256 x)
    (hlive : T.revokedAt = none) :
    SessionEnded p.world.tokens T.id ↔
      ∀ e ∈ p.world.own i, e.mark = .flush T.id 1 → ¬ Rotated (tokensOf e.before) T.id := by
  have hpost := h.outcome hth hout
  rw [hreq] at hpost
  have hlogout : Logout env x i (.ok .done) p.world := hpost
  obtain ⟨e₁, he₁, hfound⟩ := hlogout.found
  obtain rfl := Option.some.inj (he₀.symm.trans he₁)
  obtain ⟨e, he, hm⟩ := hfound rfl T hT hhash hlive
  constructor
  · intro hended e he _ hrotated
    have htrace := (World.mem_own.mp he).1
    exact hended.unreplaced (hrotated.evolves (h.families_before htrace) (h.evolves_before htrace))
  · intro hsafe
    have hunrotated := hsafe e he hm
    have hdead : Dead p.world.tokens T.id := by
      cases hlogout.idle e he with
      | inl hidle => exact absurd (.inr hm) (hidle.1 T.id)
      | inr hflush =>
          obtain ⟨T', hT', hm', -, -, hdead⟩ := hflush
          have hid : T.id = T'.id := (Mark.flush.inj (hm.symm.trans hm')).1
          rw [hid]
          refine hdead ?_
          by_contra hne
          exact hunrotated ⟨T', hT', hid.symm, hne⟩
    refine ⟨h.inv.families.familyRevoked_of_dead (n := 0) rfl hdead, fun hrotated => ?_⟩
    obtain ⟨r, hr, hid, -, hnone⟩ := hdead
    obtain ⟨r', hr', hid', hne⟩ := hrotated
    rw [h.inv.families.row_unique hr' hr (hid'.trans hid.symm)] at hne
    exact hne hnone

/-- A logout between the lookup of a refresh and its UPDATE, which then matches no row. -/
def loggedOut : Calls plainEnvironment :=
  loggedIn.played (serve plainEnvironment)
    [.spawn (.logout (plainEnvironment.token 18)), .spawn (.refresh (plainEnvironment.token 18)),
      .exec 3, .exec 2, .exec 3, .exec 2, .exec 3, .finish 2, .finish 3]

theorem logout_ends_session_loggedOut : (∃ e ∈ loggedOut.world.own 3, e.mark = .guard ⟨40⟩ 0) ∧
    SessionEnded loggedOut.world.tokens ⟨40⟩ := by
  have hreachable : loggedOut.Reachable := loggedIn_reachable.played _
  obtain ⟨th, hth⟩ := Option.isSome_iff_exists.mp
    (show (loggedOut.threads[2]?).isSome by decide +kernel)
  obtain ⟨e, he⟩ := Option.isSome_iff_exists.mp
    (show ((loggedOut.world.own 2)[0]?).isSome by decide +kernel)
  have hcall : ∀ th ∈ loggedOut.threads[2]?, th.request = .logout (plainEnvironment.token 18) ∧
      th.outcome = some (.ok .done) := by decide +kernel
  have hread : ∀ e ∈ (loggedOut.world.own 2)[0]?,
      ⟨⟨40⟩, ⟨2⟩, plainEnvironment.token 18, 604819000000, none, none⟩ ∈ tokensOf e.before := by
    decide +kernel
  refine ⟨by decide +kernel, ?_⟩
  refine (logout_ends_session_iff hreachable hth (hcall th hth).1 (hcall th hth).2 he
    (hread e he) rfl rfl).mpr ?_
  decide +kernel

/-- A logout that a refresh overtakes between its SELECT and its UPDATE. -/
def overtaken : Calls plainEnvironment :=
  loggedIn.played (serve plainEnvironment)
    [.spawn (.logout (plainEnvironment.token 18)), .spawn (.refresh (plainEnvironment.token 18)),
      .exec 2, .finish 3, .finish 2]

/-- The logout read its token as unrevoked, revoked it and recorded `USER_LOGOUT`; the
token has a successor, and that one is not revoked. -/
theorem logout_overtaken : overtaken.Reachable ∧ (∀ th ∈ overtaken.threads, th.outcome.isSome) ∧
    (∀ e ∈ (overtaken.world.own 2)[0]?,
      ⟨⟨40⟩, ⟨2⟩, plainEnvironment.token 18, 604819000000, none, none⟩ ∈ tokensOf e.before) ∧
    (∃ e ∈ overtaken.world.own 2, e.mark = .flush ⟨40⟩ 1) ∧
    (∃ log ∈ Tables.auditLogs overtaken.world.shared.state, log.action = .userLogout) ∧
    Rotated overtaken.world.tokens ⟨40⟩ ∧ ¬ FamilyRevoked overtaken.world.tokens ⟨40⟩ := by
  refine ⟨loggedIn_reachable.played _, by decide +kernel, by decide +kernel, by decide +kernel,
    by decide +kernel, by decide +kernel, fun hrevoked => ?_⟩
  have hold : ⟨⟨40⟩, ⟨2⟩, plainEnvironment.token 18, 604819000000, some 43000000, some ⟨64⟩⟩ ∈
      overtaken.world.tokens := by decide +kernel
  have hnew : ⟨⟨64⟩, ⟨2⟩, plainEnvironment.token 28, 604829000000, none, none⟩ ∈
      overtaken.world.tokens := by decide +kernel
  have hlink : rotation.Link overtaken.world.tokens ⟨40⟩ ⟨64⟩ := ⟨_, hold, rfl, rfl⟩
  exact hrevoked _ hnew (Chaining.links_one hlink).joined rfl

/-! The walk. -/

/-- The token whose reuse an event reports. -/
def AuditLog.reused (row : AuditLog) : Option Uuid :=
  match row.action, row.eventMetadata with
  | .refreshTokenReuseDetected, some [(_, .uuid id), _] => some id
  | _, _ => none

def Mark.reused : Mark → Option Uuid
  | recorded row => row.reused
  | _ => none

/-- The token that a conditional UPDATE found revoked. -/
def Mark.lost : Mark → Option Uuid
  | guard id 0 => some id
  | _ => none

/-- When `revoke_descendants` returns, which the next statement of the call reports, the
family is revoked, whatever rotations raced with the walk: unless the walk ran out of
steps, or one of its UPDATEs came too late for a rotation. -/
theorem walk_revokes_family {n : Nat} {id : Uuid} {last e : Entry (machine env) Request}
    (h : p.Reachable) (hlast : (p.world.own i)[n]? = some last)
    (he : (p.world.own i)[n + 1]? = some e) (hreuse : e.mark.reused = some id)
    (hshort : ∀ c, ¬ rotation.Links (tokensOf last.after) (maxFamilyWalkSteps + 1) id c)
    (hwon : ∀ e' ∈ p.world.own i, ∀ c, e'.mark = .guard c 0 → ¬ Rotated (tokensOf e'.before) c) :
    FamilyRevoked (tokensOf last.after) id := by
  have hmem := World.mem_own.mp (List.mem_of_getElem? he)
  cases hm : e.mark with
  | recorded row =>
      have hreused : row.reused = some id := by rwa [hm] at hreuse
      have ha : row.action = .refreshTokenReuseDetected := by
        simp only [AuditLog.reused] at hreused
        split at hreused
        · assumption
        · cases hreused
      obtain ⟨x, b, last', T, hT, -, -, -, hmeta, hnext, hend⟩ := h.inv.truthful e hmem.1 row hm ha
      rw [hmem.2] at hnext hend
      have hlast' := getElem?_of_infix (h.inv.sound.placed.nodup.filter _) hnext he
      obtain rfl : last = last' := Option.some.inj (hlast.symm.trans hlast')
      have hid : T.id = id := by simpa [AuditLog.reused, ha, hmeta] using hreused
      rw [hid] at hend
      cases hend with
      | inl hrevoked => exact hrevoked
      | inr hend =>
          cases hend with
          | inl hlost =>
              obtain ⟨e', he', c, hguard, hrotated⟩ := hlost
              exact absurd hrotated (hwon e' he' c hguard)
          | inr hlong => exact absurd hlong.choose_spec (hshort _)
  | _ => simp [hm, Mark.reused] at hreuse

/-- A replay of the first token. The second one is rotated before the walk's SELECT of it, and the
third is logged out between the walk's SELECT of it and its UPDATE. -/
def chased : Calls plainEnvironment :=
  rotatedOnce.played (serve plainEnvironment)
    [.spawn (.refresh (plainEnvironment.token 18)), .spawn (.refresh (plainEnvironment.token 27)),
      .exec 3, .finish 4, .exec 3, .exec 3, .exec 3, .spawn (.logout (plainEnvironment.token 46)),
      .finish 5, .finish 3]

/-- The UPDATE of the walk comes too late, though not for a rotation. -/
theorem walk_revokes_family_chased : (∃ e ∈ chased.world.own 3, e.mark = .guard ⟨100⟩ 0) ∧
    ∃ last ∈ (chased.world.own 3)[5]?, (tokensOf last.after).length = 3 ∧
      FamilyRevoked (tokensOf last.after) ⟨40⟩ := by
  have hreachable : chased.Reachable := Calls.Reachable.played (loggedIn_reachable.played _) _
  obtain ⟨last, hlast⟩ := Option.isSome_iff_exists.mp
    (show ((chased.world.own 3)[5]?).isSome by decide +kernel)
  obtain ⟨e, he⟩ := Option.isSome_iff_exists.mp
    (show ((chased.world.own 3)[5 + 1]?).isSome by decide +kernel)
  have hreuse : ∀ e ∈ (chased.world.own 3)[5 + 1]?, e.mark.reused = some ⟨40⟩ := by decide +kernel
  have hrows : ∀ e ∈ (chased.world.own 3)[5]?, (tokensOf e.after).length = 3 := by decide +kernel
  have hlost : ∀ e' ∈ chased.world.own 3, ∀ c ∈ e'.mark.lost, ¬ Rotated (tokensOf e'.before) c := by
    decide +kernel
  have hfam := hreachable.families_after (World.mem_own.mp (List.mem_of_getElem? hlast)).1
  refine ⟨by decide +kernel, last, hlast, hrows last hlast, ?_⟩
  refine walk_revokes_family hreachable hlast he (hreuse e he) (fun c hlinks => ?_)
    fun e' he' c hm => hlost e' he' c (by rw [hm]; rfl)
  have hlt := hfam.linear.links_lt_length hlinks
  rw [hrows last hlast] at hlt
  simp [maxFamilyWalkSteps] at hlt

/-- A replay whose walk is outrun: the second token is rotated between the walk's SELECT
and its UPDATE. -/
def outrun : Calls plainEnvironment :=
  rotatedOnce.played (serve plainEnvironment)
    [.spawn (.refresh (plainEnvironment.token 18)), .spawn (.refresh (plainEnvironment.token 27)),
      .exec 3, .exec 3, .exec 3, .finish 4, .finish 3]

/-- Its family, when the walk returns. -/
def outrunFamily : List RefreshToken :=
  [⟨⟨40⟩, ⟨2⟩, plainEnvironment.token 18, 604819000000, some 29000000, some ⟨62⟩⟩,
    ⟨⟨62⟩, ⟨2⟩, plainEnvironment.token 27, 604828000000, some 50000000, some ⟨104⟩⟩,
    ⟨⟨104⟩, ⟨2⟩, plainEnvironment.token 48, 604849000000, none, none⟩]

/-- The family has three tokens, and the walk returns with the third one unrevoked. -/
theorem walk_outrun : outrun.Reachable ∧ (∀ th ∈ outrun.threads, th.outcome.isSome) ∧
    (∀ e ∈ (outrun.world.own 3)[5]?, e.mark.reused = some ⟨40⟩) ∧
    ∃ last ∈ (outrun.world.own 3)[4]?, (tokensOf last.after).length = 3 ∧
      ¬ FamilyRevoked (tokensOf last.after) ⟨40⟩ := by
  obtain ⟨last, hlast⟩ := Option.isSome_iff_exists.mp
    (show ((outrun.world.own 3)[4]?).isSome by decide +kernel)
  have hrows : ∀ e ∈ (outrun.world.own 3)[4]?, tokensOf e.after = outrunFamily := by decide +kernel
  refine ⟨Calls.Reachable.played (loggedIn_reachable.played _) _, by decide +kernel,
    by decide +kernel, last, hlast, by rw [hrows last hlast]; rfl, fun hrevoked => ?_⟩
  rw [hrows last hlast] at hrevoked
  have hfirst : rotation.Link outrunFamily ⟨40⟩ ⟨62⟩ := ⟨_, .head _, rfl, rfl⟩
  have hsecond : rotation.Link outrunFamily ⟨62⟩ ⟨104⟩ := ⟨_, .tail _ (.head _), rfl, rfl⟩
  have hlinks : rotation.Links outrunFamily 2 ⟨40⟩ ⟨104⟩ :=
    ⟨⟨62⟩, Chaining.links_one hfirst, hsecond⟩
  exact hrevoked _ (.tail _ (.tail _ (.head _))) hlinks.joined rfl

end SecureIam
