import SecureIam.Tokens.Rules

/-!
The walk of `revoke_descendants`. In each round the identity map holds tokens that
the walk has passed, so that the next candidate is read from the database; the
candidate of a lost race is mapped, so that its re-read is not.
-/
namespace SecureIam
open Lib
variable {env : Environment} {α : Type} {i : Nat} {req : Request} {l l' : Session}
  {u v w : History env Request} {Q : Protocol.Post (machine env) Request Error α}
  {past : List (Entry (machine env) Request)} {a : Uuid}

/-- The thread has just got a statement through. -/
def Stands (i : Nat) (w : History env Request) : Prop :=
  ∃ last, (w.own i).getLast? = some last ∧ last.after = w.shared

theorem Ran.stands {o : Stmt} {r : o.Res} (h : Ran i req o r l l' u v w) : Stands i w :=
  ⟨_, h.own ▸ List.getLast?_concat, rfl⟩

/-- Since `past` the thread inserted no token, and revoked tokens after `a` only. -/
def WalksFrom (past : List (Entry (machine env) Request)) (a : Uuid) (i : Nat)
    (w : History env Request) : Prop :=
  ∃ new, w.own i = past ++ new ∧ ∀ e ∈ new, (∀ x, e.mark ≠ .issued x) ∧
    ∀ id, e.mark.Revokes id → ∃ n, rotation.Links w.tokens (n + 1) a id

theorem WalksFrom.refl (a : Uuid) (i : Nat) (w : History env Request) :
    WalksFrom (w.own i) a i w :=
  ⟨[], (List.append_nil _).symm, by simp⟩

theorem WalksFrom.ran {o : Stmt} {r : o.Res} (h : WalksFrom past a i u) (hu : Families u.tokens)
    (hran : Ran i req o r l l' u v w) (hissued : ∀ x, Stmt.mark o r ≠ .issued x)
    (hrev : ∀ id, (Stmt.mark o r).Revokes id → ∃ n, rotation.Links w.tokens (n + 1) a id) :
    WalksFrom past a i w := by
  obtain ⟨new, hown, hnew⟩ := h
  refine ⟨new ++ [entry i req o r v w], by rw [hran.own, hown, List.append_assoc], fun e he => ?_⟩
  rw [List.mem_append, List.mem_singleton] at he
  cases he with
  | inl he =>
      refine ⟨(hnew e he).1, fun id hm => ?_⟩
      obtain ⟨n, hl⟩ := (hnew e he).2 id hm
      exact ⟨n, hran.evolves.links_mono hu hl⟩
  | inr he => exact he ▸ ⟨hissued, hrev⟩

theorem WalksFrom.quiet {o : Stmt} {r : o.Res} (h : WalksFrom past a i u) (hu : Families u.tokens)
    (hran : Ran i req o r l l' u v w) (hm : (Stmt.mark o r).Neutral) : WalksFrom past a i w :=
  h.ran hu hran hm.idle.2 fun id hrev => absurd hrev (hm.idle.1 id)

/-- How a walk from `a` ends. -/
structure Walked (past : List (Entry (machine env) Request)) (a : Uuid) (i : Nat) (l : Session)
    (w : History env Request) : Prop where
  inv : TokenInv w
  pending : l.pending = []
  stands : Stands i w
  own : WalksFrom past a i w
  ended : FamilyRevoked w.tokens a ∨
    (∃ e ∈ w.own i, ∃ c, e.mark = .guard c 0 ∧ Rotated (tokensOf e.before) c) ∨
    ∃ c, rotation.Links w.tokens (RefreshTokenRepository.maxFamilyWalkSteps + 1) a c

/-- The walk has come `n` links from `a`, and mapped nothing beyond. -/
structure Walking (past : List (Entry (machine env) Request)) (a : Uuid) (n : Nat) (i : Nat)
    (l : Session) (w : History env Request) : Prop where
  inv : TokenInv w
  pending : l.pending = []
  stands : Stands i w
  own : WalksFrom past a i w
  mapped : ∀ id y, l.refreshTokens id = some y → ∃ m < n, rotation.Links w.tokens m a id

theorem Walking.unmapped {n : Nat} {next : Uuid} (h : Walking past a n i l u)
    (hnext : rotation.Links u.tokens n a next) : l.refreshTokens next = none := by
  cases hmap : l.refreshTokens next with
  | none => rfl
  | some y =>
      obtain ⟨m, hm, hl⟩ := h.mapped next y hmap
      have := h.inv.families.linear.links_distance hl hnext
      omega

/-- The candidate that a round reads is the committed row. -/
theorem Walking.candidate {n : Nat} {next : Uuid} (h : Walking past a (n + 1) i l u)
    (hnext : rotation.Links u.tokens (n + 1) a next) (hv : Evolves u.tokens v.tokens)
    (hfam : Families v.tokens) :
    ∃ c ∈ v.tokens, c.id = next ∧
      ((v.tokens.filter (·.id = next)).map (l.object .refreshTokens)) = [c] := by
  obtain ⟨c, hc, rfl⟩ := hfam.links_row (hv.links_mono h.inv.families hnext)
  refine ⟨c, hc, rfl, ?_⟩
  rw [hfam.filter_id hc, List.map_singleton]
  simp [Session.object, h.unmapped hnext]

/-- The `else` branch: the leaf is revoked, and with it the family. -/
theorem wp_walk_won {n : Nat} {t : Time} {x : RefreshToken} {f : Option RefreshToken → App α}
    (hfam : Families u.tokens) (hown : WalksFrom past a i u)
    (hp : l.pending = [.setRevokedAt x.id t]) (hx : x ∈ u.tokens) (hlive : x.revokedAt = none)
    (hlinks : rotation.Links u.tokens n a x.id) (hguard : ∃ e ∈ u.own i, e.mark.Revokes x.id)
    (hend : ∀ w l' leaf, Evolves u.tokens w.tokens → Walked past a i l' w →
      (tokenProtocol env).wp i req Q (f leaf) l' w) :
    (tokenProtocol env).wp i req Q
      ((App.commit.bind fun _ => (App.refresh .refreshTokens x.id).bind fun r =>
        .ret (some r)).bind f) l u := by
  simp only [Program.bind_assoc, Program.ret_bind]
  refine wp_commit_revoke hp hx rfl hguard fun v w hran hxv hw => ?_
  have hnone : x.replacedBy = none := by
    by_contra hne
    exact hfam.superseded x hx hne hlive
  have hdead : Dead w.tokens x.id := by
    refine ⟨x.revoke x.id t, hw ▸ List.mem_map_of_mem hxv, (revoke_same x x.id t).1, ?_, ?_⟩
    · simp [RefreshToken.revoke]
    · exact (revoke_same x x.id t).2.2.trans hnone
  have hown' := hown.quiet hfam hran trivial
  have hlinks' := hran.evolves.links_mono hfam hlinks
  have hkey : w.shared.state.hasKey (tokenKey x.id) :=
    hran.lasts _ (LockKey.not_link (by decide)) (hasKey_token.mpr ⟨x, hx, rfl⟩)
  refine wp_refresh rfl (by simp [Table.Link]) hkey fun v₂ w₂ l₂ row hran₂ _ hl₂ _ _ => ?_
  have hlinks₂ := hran₂.evolves.links_mono hran.inv.families hlinks'
  refine hend w₂ l₂ _ (hran.evolves.trans hran₂.evolves) ⟨hran₂.inv, by simp [hl₂],
    hran₂.stands, hown'.quiet hran.inv.families hran₂ trivial, .inl ?_⟩
  exact hran₂.inv.families.familyRevoked_of_dead hlinks₂ (hdead.evolves hran₂.evolves)

/-- The lost-race branch: the re-read returns the object of the first read, which has
no successor, and the walk ends. -/
theorem wp_walk_lost {n steps : Nat} {c y : RefreshToken} {f : Option RefreshToken → App α}
    (h : Walking past a (n + 1) i l u) (hlinks : rotation.Links u.tokens n a c.id)
    (hc : ∃ x ∈ u.tokens, x.id = c.id) (hmap : l.refreshTokens c.id = some y)
    (hnone : y.replacedBy = none)
    (hlost : Dead u.tokens c.id ∨
      ∃ e ∈ u.own i, ∃ c, e.mark = .guard c 0 ∧ Rotated (tokensOf e.before) c)
    (hend : ∀ w l' leaf, Evolves u.tokens w.tokens → Walked past a i l' w →
      (tokenProtocol env).wp i req Q (f leaf) l' w) :
    (tokenProtocol env).wp i req Q
      (((RefreshTokenRepository.getById c.id).bind fun
        | none => .ret none
        | some refreshed =>
            match refreshed.replacedBy with
            | none => .ret none
            | some next => RefreshTokenRepository.walk steps next).bind f) l u := by
  simp only [RefreshTokenRepository.getById, Program.bind_def, Program.bind_assoc]
  refine wp_select h.pending fun v w l' hran hstate hl' => ?_
  obtain ⟨x, hx, hid⟩ := hc
  obtain ⟨x', hx', hev⟩ := hran.later.1.2.kept x hx
  have hid' : x'.id = c.id := hev.id.trans hid
  have hrows : (v.tokens.filter (·.id = c.id)).map (l.object .refreshTokens) = [y] := by
    rw [← hid', hran.later.2.1.families.filter_id hx', List.map_singleton]
    simp [Session.object, hid', hmap]
  have hfam := hran.inv.families
  rw [show (v.shared.state.refreshTokens.filter (·.id = c.id)).map (l.object .refreshTokens) = [y]
    from hrows]
  simp only [App.scalarOneOrNone, Program.pure_def, Program.ret_bind, hnone]
  refine hend w l' none hran.evolves ⟨hran.inv, by simp [hl', h.pending], hran.stands,
    h.own.quiet h.inv.families hran trivial, ?_⟩
  cases hlost with
  | inl hdead =>
      have hlinks' := hran.evolves.links_mono h.inv.families hlinks
      exact .inl (hfam.familyRevoked_of_dead hlinks' (hdead.evolves hran.evolves))
  | inr hlost =>
      obtain ⟨e, he, hlost⟩ := hlost
      exact .inr (.inl ⟨e, hran.kept he, hlost⟩)

/-- What a round of the walk has mapped when it goes on. -/
theorem Walking.advance {n : Nat} {c : RefreshToken} (h : Walking past a n i l u)
    (hran : Ran i req (.select .refreshTokens fun t => t.refreshTokens.filter (·.id = c.id))
      ((v.tokens.filter (·.id = c.id)).map (l.object .refreshTokens)) l l' u v w)
    (hc : c ∈ v.tokens) (hlinks : rotation.Links u.tokens n a c.id)
    (hl' : l' = (l.touch v.trace.length).load .refreshTokens (v.tokens.filter (·.id = c.id))) :
    Walking past a (n + 1) i l' w ∧ l'.refreshTokens c.id = some c := by
  have hmap : ∀ id, l'.refreshTokens id =
      (l.refreshTokens id).or (if c.id = id then some c else none) := by
    intro id
    rw [hl', hran.later.2.1.families.filter_id hc]
    by_cases hid : c.id = id <;> simp [Session.load, Session.touch, hid]
  refine ⟨⟨hran.inv, by simp [hl', h.pending], hran.stands,
    h.own.quiet h.inv.families hran trivial, fun id y hy => ?_⟩, ?_⟩
  · rw [hmap] at hy
    cases hold : l.refreshTokens id with
    | some z =>
        obtain ⟨m, hm, hl⟩ := h.mapped id z hold
        exact ⟨m, by omega, hran.evolves.links_mono h.inv.families hl⟩
    | none =>
        simp only [hold, Option.none_or] at hy
        split at hy
        · rename_i hid
          exact ⟨n, by omega, hid ▸ hran.evolves.links_mono h.inv.families hlinks⟩
        · cases hy
  · simp [hmap, h.unmapped hlinks]

/-- The last round: the candidate had no successor when it was read. -/
theorem wp_walk_last {n steps : Nat} {c : RefreshToken} {f : Option RefreshToken → App α}
    (h : Walking past a (n + 2) i l u) (hlinks : rotation.Links u.tokens (n + 1) a c.id)
    (hmap : l.refreshTokens c.id = some c) (hnone : c.replacedBy = none)
    (hend : ∀ w l' leaf, Evolves u.tokens w.tokens → Walked past a i l' w →
      (tokenProtocol env).wp i req Q (f leaf) l' w) :
    (tokenProtocol env).wp i req Q
      (((RefreshTokenRepository.revokeIfActive c.id).bind fun count =>
        if count = 0 then
          (RefreshTokenRepository.getById c.id).bind fun
            | none => .ret none
            | some refreshed =>
                match refreshed.replacedBy with
                | none => .ret none
                | some next => RefreshTokenRepository.walk steps next
        else
          App.commit.bind fun _ =>
            (App.refresh .refreshTokens c.id).bind fun r => .ret (some r)).bind f) l u := by
  simp only [RefreshTokenRepository.revokeIfActive, Program.bind_def, Program.bind_assoc]
  refine wp_utcNow fun v₁ w₁ hran₁ hstate₁ => ?_
  have hlinks₁ := hran₁.evolves.links_mono h.inv.families hlinks
  have hown₁ := h.own.quiet h.inv.families hran₁ trivial
  have hfam₁ := hran₁.inv.families
  refine wp_revokeIfActive h.pending (fun v₂ w₂ l₂ hran₂ hstate₂ hrevoked hl₂ => ?_)
    fun v₂ w₂ l₂ x hran₂ hstate₂ hx hid hlive hp₂ => ?_
  · have htokens₂ : w₂.tokens = v₂.tokens := congrArg Tables.refreshTokens hstate₂
    have hlinks₂ := hran₂.evolves.links_mono hfam₁ hlinks₁
    have hmarks₂ : (Stmt.mark (.revokeIfActive c.id (env.clock v₁.trace.length)) 0).Neutral :=
      Nat.zero_ne_one
    obtain ⟨x, hx, hid⟩ := hran₂.inv.families.links_row hlinks₂
    have hwalk : Walking past a (n + 2) i l₂ w₂ := by
      refine ⟨hran₂.inv, by simp [hl₂, h.pending], hran₂.stands,
        hown₁.quiet hfam₁ hran₂ hmarks₂, fun id y hy => ?_⟩
      have hold : ∃ z, l.refreshTokens id = some z := by
        rw [hl₂] at hy
        simp only [Session.amendToken, Session.touch] at hy
        split at hy
        · obtain ⟨z, hz, -⟩ := Option.map_eq_some_iff.mp hy
          exact ⟨z, hz⟩
        · exact ⟨y, hy⟩
      obtain ⟨z, hz⟩ := hold
      obtain ⟨m, hm, hl⟩ := h.mapped id z hz
      have hev := hran₁.evolves.trans hran₂.evolves
      exact ⟨m, hm, hev.links_mono h.inv.families hl⟩
    have hstale : ∃ y, l₂.refreshTokens c.id = some y ∧ y.replacedBy = none := by
      rw [hl₂]
      simp only [Session.amendToken, Session.touch, if_true, hmap, Option.map_some]
      refine ⟨_, rfl, ?_⟩
      split <;> exact hnone
    obtain ⟨y, hy, hynone⟩ := hstale
    refine wp_walk_lost hwalk hlinks₂ ⟨x, hx, hid⟩ hy hynone ?_ fun w l' leaf hev hw => ?_
    · have hxv : x ∈ v₂.tokens := htokens₂ ▸ hx
      by_cases hxn : x.replacedBy = none
      · exact .inl ⟨x, hx, hid, hrevoked x hxv hid, hxn⟩
      · exact .inr ⟨_, hran₂.mem_own, c.id, rfl, x, hxv, hid, hxn⟩
    · exact hend w l' leaf (hran₁.evolves.trans (hran₂.evolves.trans hev)) hw
  · have htokens₂ : w₂.tokens = v₂.tokens := congrArg Tables.refreshTokens hstate₂
    have hlinks₂ := hran₂.evolves.links_mono hfam₁ hlinks₁
    have hown₂ : WalksFrom past a i w₂ := by
      refine hown₁.ran hfam₁ hran₂ (fun _ hm => nomatch hm) fun id hm => ⟨n, ?_⟩
      cases hm with
      | inl hm => exact (Mark.guard.inj hm).1 ▸ hlinks₂
      | inr hm => cases hm
    rw [← hid] at hp₂ hlinks₂ ⊢
    refine wp_walk_won hran₂.inv.families hown₂ hp₂ (htokens₂ ▸ hx) hlive hlinks₂
      ⟨_, hran₂.mem_own, .inl (hid ▸ rfl)⟩ fun w l' leaf hev hw => ?_
    exact hend w l' leaf (hran₁.evolves.trans (hran₂.evolves.trans hev)) hw

/-- The walk, from its round for the token `n + 1` links after `a`. -/
theorem wp_walk {n steps : Nat} {next : Uuid} {f : Option RefreshToken → App α}
    (h : Walking past a (n + 1) i l u) (hnext : rotation.Links u.tokens (n + 1) a next)
    (hsteps : n + steps = RefreshTokenRepository.maxFamilyWalkSteps)
    (hend : ∀ w l' leaf, Evolves u.tokens w.tokens → Walked past a i l' w →
      (tokenProtocol env).wp i req Q (f leaf) l' w) :
    (tokenProtocol env).wp i req Q ((RefreshTokenRepository.walk steps next).bind f) l u := by
  induction steps generalizing n next l u with
  | zero =>
      refine hend u l none (.refl _) ⟨h.inv, h.pending, h.stands, h.own, .inr (.inr ⟨next, ?_⟩)⟩
      exact hsteps ▸ hnext
  | succ steps ih =>
      simp only [RefreshTokenRepository.walk, Program.bind_def, Program.bind_assoc]
      rw [RefreshTokenRepository.getById, Program.bind_def, Program.bind_assoc]
      refine wp_select h.pending fun v w l₁ hran hstate hl₁ => ?_
      obtain ⟨c, hc, rfl, hrows⟩ := h.candidate hnext hran.later.1.2 hran.later.2.1.families
      have hcw : c ∈ w.tokens := by
        rw [World.tokens, tokensOf, hstate]
        exact hc
      have hlinks := hran.evolves.links_mono h.inv.families hnext
      obtain ⟨hwalk, hmap⟩ := h.advance hran hc hnext hl₁
      rw [show (v.shared.state.refreshTokens.filter (·.id = c.id)).map
        (l.object .refreshTokens) = [c] from hrows]
      simp only [App.scalarOneOrNone, Program.pure_def, Program.ret_bind]
      cases hn : c.replacedBy with
      | some next =>
          refine ih hwalk ⟨c.id, hlinks, c, hcw, rfl, hn⟩ (by omega) fun w' l' leaf hev hend' => ?_
          exact hend w' l' leaf (hran.evolves.trans hev) hend'
      | none =>
          refine wp_walk_last hwalk hlinks hmap hn fun w' l' leaf hev hend' => ?_
          exact hend w' l' leaf (hran.evolves.trans hev) hend'

end SecureIam
