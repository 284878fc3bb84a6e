import SecureIam.Repositories.RefreshTokenRepository
import SecureIam.Repositories.Solo
import SecureIam.Repositories.UserRepository

/-!
The repositories of users and refresh tokens when they run alone: the walk down a
family, and the rotation with its three row changes.
-/
namespace SecureIam
open Lib App
variable {env : Environment} {t v : Tables} {before : List Tables} {s : Solo}

namespace Tables

def token? (t : Tables) (id : Uuid) : Option RefreshToken := t.refreshTokens.find? (·.id = id)

/-- Where the walk of so many rounds ends: the first token without a successor. -/
def leaf (t : Tables) : Nat → Uuid → Option RefreshToken
  | 0, _ => none
  | steps + 1, id =>
      match t.token? id with
      | none => none
      | some token =>
          match token.replacedBy with
          | some next => t.leaf steps next
          | none => some token

theorem token?_eq_some {id : Uuid} {token : RefreshToken} (h : t.token? id = some token) :
    token ∈ t.refreshTokens ∧ token.id = id :=
  ⟨List.mem_of_find?_eq_some h, by simpa using List.find?_some h⟩

theorem leaf_eq_some {steps : Nat} {id : Uuid} {token : RefreshToken}
    (h : t.leaf steps id = some token) :
    token ∈ t.refreshTokens ∧ token.replacedBy = none := by
  induction steps generalizing id with
  | zero => cases h
  | succ steps ih =>
      simp only [leaf] at h
      split at h
      · cases h
      · rename_i first hfirst
        split at h
        · exact ih h
        · rename_i hnone
          cases h
          exact ⟨(token?_eq_some hfirst).1, hnone⟩

end Tables

namespace RefreshTokenRepository

theorem getById_ends (hs : s.view.Schema) (id : Uuid) :
    Ends env (getById id) s (.ok (s.view.token? id)) s.touch :=
  ends_lookup (τ := .refreshTokens) (k := .primary .refreshTokens id) (p := (·.id = id)) hs
    (by simp +contextual [Table.keys])

/-- The UPDATE of a token that is not revoked. -/
theorem revokeIfActive_ends {token : RefreshToken} (ht : token ∈ s.view.refreshTokens)
    (hlive : token.revokedAt = none) : Ends env (revokeIfActive token.id) s (.ok 1)
      (s.next.write (.setRevokedAt token.id (env.clock s.step))) := by
  have hwhere : updateWhere .refreshTokens (fun r => r.id = token.id ∧ r.revokedAt = none)
      (.setRevokedAt token.id (env.clock s.step)) s.view = some _ :=
    updateWhere_eq_some.mpr ⟨⟨token, ht, by simp [hlive]⟩, rfl⟩
  have hissue : Ends env (App.issue (.revokeIfActive token.id (env.clock s.step))) s.next _ _ :=
    Program.eval_issue (congrArg (fun found => some (s.next.writeRow found)) hwhere)
  exact hissue

/-- It matches no row of a token that is. -/
theorem revokeIfActive_ends_zero (hs : s.view.Schema) {token : RefreshToken}
    (ht : token ∈ s.view.refreshTokens) (hrevoked : token.revokedAt ≠ none) :
    Ends env (revokeIfActive token.id) s (.ok 0) s.next.touch := by
  have hwhere : updateWhere .refreshTokens (fun r => r.id = token.id ∧ r.revokedAt = none)
      (.setRevokedAt token.id (env.clock s.step)) s.view = none := by
    refine updateWhere_eq_none.mpr fun r hr hmatch => ?_
    simp only [decide_eq_true_eq] at hmatch
    have heq : r = token := hs.row_unique (τ := .refreshTokens)
      (k := .primary .refreshTokens token.id) hr ht
      (by simp [Table.keys, hmatch.1]) (by simp [Table.keys])
    exact hrevoked (heq ▸ hmatch.2)
  have hissue : Ends env (App.issue (.revokeIfActive token.id (env.clock s.step))) s.next _ _ :=
    Program.eval_issue (congrArg (fun found => some (s.next.writeRow found)) hwhere)
  exact hissue

/-- The walk revokes the leaf, unless it is revoked or too far away. -/
theorem walk_ends (h : s.Settled env t before) (steps : Nat) (next : Uuid) :
    (∃ s', Ends env (walk steps next) s (.ok none) s' ∧ s'.Settled env t before ∧
      ∀ leaf, t.leaf steps next = some leaf → leaf.revokedAt ≠ none) ∨
    ∃ leaf m s', t.leaf steps next = some leaf ∧ leaf.revokedAt = none ∧
      (s.step ≤ m ∧ m < s'.step) ∧
      Ends env (walk steps next) s (.ok (some { leaf with revokedAt := some (env.clock m) })) s' ∧
      s'.Settled env ((Write.setRevokedAt leaf.id (env.clock m)).apply t) (t :: before) := by
  induction steps generalizing next s with
  | zero => exact .inl ⟨s, rfl, h, fun leaf hleaf => nomatch hleaf⟩
  | succ steps ih =>
      have hlookup : Ends env _ _ _ _ := getById_ends h.good.schema next
      rw [h.view] at hlookup
      cases hfirst : t.token? next with
      | none =>
          rw [hfirst] at hlookup
          exact .inl ⟨s.touch, hlookup.bind rfl, h.touch,
            fun leaf hleaf => by simp [Tables.leaf, hfirst] at hleaf⟩
      | some first =>
          rw [hfirst] at hlookup
          obtain ⟨hmem, hid⟩ := Tables.token?_eq_some hfirst
          cases hnext : first.replacedBy with
          | some second =>
              have hleaf : t.leaf (steps + 1) next = t.leaf steps second := by
                simp only [Tables.leaf, hfirst, hnext]
              rw [hleaf]
              cases ih h.touch second with
              | inl hdead =>
                  obtain ⟨s', hends, hsettled, hdead⟩ := hdead
                  refine .inl ⟨s', hlookup.bind ?_, hsettled, hdead⟩
                  simpa only [hnext] using hends
              | inr hrevoked =>
                  obtain ⟨leaf, m, s', hfound, hlive, hm, hends, hsettled⟩ := hrevoked
                  refine .inr ⟨leaf, m, s', hfound, hlive,
                    ⟨(Nat.le_succ _).trans hm.1, hm.2⟩, hlookup.bind ?_, hsettled⟩
                  simpa only [hnext] using hends
          | none =>
              have hleaf : t.leaf (steps + 1) next = some first := by
                simp only [Tables.leaf, hfirst, hnext]
              by_cases hlive : first.revokedAt = none
              · right
                have hupdate : Ends env _ _ _ _ := revokeIfActive_ends (s := s.touch)
                  (h.view.symm ▸ hmem) hlive
                obtain ⟨s', hcommit, hreload, hsettled⟩ := ends_update_commit
                  (τ := .refreshTokens) (w := .setRevokedAt first.id (env.clock s.touch.step))
                  h.touch.next rfl rfl (List.mem_map.mpr ⟨first, hmem, if_pos rfl⟩)
                  List.mem_cons_self
                have hstep : s.touch.step + 2 ≤ s'.step := hcommit.step_le
                refine ⟨first, s.touch.step, s'.touch, hleaf, hlive,
                  ⟨Nat.le_succ _, (Nat.le_add_right _ 2).trans_lt (Nat.lt_succ_of_le hstep)⟩,
                  hlookup.bind ?_, hsettled⟩
                simp only [hnext] at hreload ⊢
                exact hupdate.bind (hcommit.bind (hreload.map some))
              · left
                have hupdate : Ends env _ _ _ _ := revokeIfActive_ends_zero (s := s.touch)
                  h.touch.good.schema (h.view.symm ▸ hmem) hlive
                have hreread : Ends env _ _ _ _ := getById_ends (s := s.touch.next.touch)
                  h.touch.next.touch.good.schema first.id
                rw [h.touch.next.touch.view, hid, hfirst] at hreread
                refine ⟨s.touch.next.touch.touch, hlookup.bind ?_, h.touch.next.touch.touch,
                  fun leaf hfound => ?_⟩
                · simp only [hnext]
                  refine hupdate.bind ?_
                  rw [if_pos rfl, hid]
                  refine hreread.bind ?_
                  simp only [hnext]
                  rfl
                · rw [hleaf] at hfound
                  cases hfound
                  exact hlive

/-- The UPDATE of the link, in the transaction that inserts the child. -/
theorem setReplacedBy_ends {token : RefreshToken} {child : Uuid} (ht : token ∈ s.view.refreshTokens)
    (hok : (Write.setReplacedBy token.id child).Ok s.view) :
    Ends env (setReplacedBy token.id child) s (.ok ())
      (s.write (.setReplacedBy token.id child)) := by
  have hwhere : updateWhere .refreshTokens (·.id = token.id) (.setReplacedBy token.id child)
    s.view = some _ :=
    updateWhere_eq_some.mpr ⟨⟨token, ht, by simp⟩, rfl⟩
  have hissue : Ends env (App.issue (.updateReplacedBy token.id child)) s (.ok (some 1))
      (s.write (.setReplacedBy token.id child)) := by
    refine Program.eval_issue ?_
    simp only [Solo.exec]
    rw [if_pos hok, hwhere]
    rfl
  exact hissue.bind rfl

end RefreshTokenRepository

/-- A token is revoked and replaced by a new one. -/
def Tables.rotated (t : Tables) (token : RefreshToken) (now : Time) (child : RefreshToken) :
    Tables :=
  (Write.setReplacedBy token.id child.id).apply
    (((Write.setRevokedAt token.id now).apply t).insert .refreshTokens child)

namespace RefreshTokenRepository

theorem createRotationPair_ends (h : s.Settled env t before) {token : RefreshToken}
    (ht : token ∈ t.refreshTokens) (hlive : token.revokedAt = none) (hash : String)
    (expires : Time) :
    ∃ m id s', (s.step ≤ m ∧ m < s'.step) ∧ (∀ τ, ¬ t.hasKey (.primary τ id)) ∧
      Ends env (createRotationPair token hash expires) s
        (.ok (some ⟨id, token.userId, hash, expires, none, none⟩)) s' ∧
      s'.Settled env (t.rotated token (env.clock m) ⟨id, token.userId, hash, expires, none, none⟩)
        (t :: before) := by
  have hupdate : Ends env _ _ _ _ := revokeIfActive_ends (h.view.symm ▸ ht) hlive
  have hrevoked := h.next.opened.write (w := .setRevokedAt token.id (env.clock s.step))
    ⟨fun k hk => (by cases hk), fun k hk => (by cases hk)⟩ fun _ _ hk => by cases hk
  generalize hs₁ : s.next.write (.setRevokedAt token.id (env.clock s.step)) = s₁ at hupdate hrevoked
  have hstep : s.step < s₁.step := hs₁ ▸ (s.step.lt_succ_self.trans (Nat.lt_succ_self _))
  have hfresh : ∀ τ, ¬ t.hasKey (.primary τ (env.uuid s₁.step)) :=
    fun τ => h.view ▸ h.good.undrawn s₁.step τ hstep.le
  generalize hchild : (draft token.userId hash expires).soloRow env s₁ = child
  have hcolumns : child = ⟨env.uuid s₁.step, token.userId, hash, expires, none, none⟩ := hchild.symm
  have hid : child.id = env.uuid s₁.step := congrArg RefreshToken.id hcolumns
  have hok : (Write.insert .refreshTokens child).Ok
      ((Write.setRevokedAt token.id (env.clock s.step)).apply t) := by
    refine ⟨fun k hk => ?_, fun k hk => ?_⟩
    · obtain rfl := List.mem_singleton.mp hk
      exact hid ▸ hrevoked.undrawn .refreshTokens
    · rw [hcolumns] at hk
      obtain rfl := List.mem_singleton.mp hk
      refine Write.hasKey_apply _ (LockKey.not_link (by decide)) ?_
      exact h.schema.references .refreshTokens token ht _ List.mem_cons_self
  have hinsert := ends_insert (hrevoked.view.symm ▸ hchild ▸ hok)
  have hinserted := hrevoked.write hok fun σ id hk =>
    (draft token.userId hash expires).soloRow_drawn env s₁ (hchild ▸ hk)
  rw [hchild] at hinsert
  have hrow : { token with revokedAt := some (env.clock s.step) } ∈
      (s₁.write (.insert .refreshTokens child)).view.refreshTokens := by
    rw [hinserted.view]
    exact List.mem_append_left _ (List.mem_map.mpr ⟨token, ht, if_pos rfl⟩)
  have hlink : (Write.setReplacedBy token.id child.id).Ok
      (s₁.write (.insert .refreshTokens child)).view := by
    refine ⟨fun k hk => (by cases hk), fun k hk => ?_⟩
    obtain rfl := List.mem_singleton.mp hk
    rw [hinserted.view]
    exact Tables.hasKey_iff.mpr
      ⟨.refreshTokens, child, List.mem_append_right _ (List.mem_singleton_self _),
      List.mem_cons_self⟩
  have hset : Ends env _ _ _ _ := setReplacedBy_ends hrow hlink
  obtain ⟨s', hcommit, hsettled⟩ := (hinserted.write (w := .setReplacedBy token.id child.id)
    (hinserted.view ▸ hlink) fun _ _ hk => by cases hk).commit
  have hne : child.id ≠ token.id := by
    intro heq
    refine hfresh .refreshTokens (Tables.hasKey_iff.mpr ⟨.refreshTokens, token, ht, ?_⟩)
    simp [Table.keys, ← heq, hid]
  have hnew : child ∈ s'.view.refreshTokens := by
    rw [hsettled.view]
    exact List.mem_map.mpr ⟨child, List.mem_append_right _ (List.mem_singleton_self _), if_neg hne⟩
  have hold : { token with revokedAt := some (env.clock s.step), replacedBy := some child.id } ∈
      s'.touch.view.refreshTokens := by
    rw [hsettled.touch.view]
    exact List.mem_map.mpr ⟨_, List.mem_append_left _ (List.mem_map.mpr ⟨token, ht, if_pos rfl⟩),
      if_pos rfl⟩
  have hreload : Ends env _ _ _ _ := ends_refresh (τ := .refreshTokens) hsettled.good.schema hnew
    (i := child.id) (by simp [Table.keys])
  have hreload' : Ends env _ _ _ _ := ends_refresh (τ := .refreshTokens) hsettled.touch.good.schema
    hold (i := token.id) (by simp [Table.keys])
  have hrest := hinsert.bind (f := fun newToken => do
    setReplacedBy token.id newToken.id
    commit
    let newToken ← refresh .refreshTokens newToken.id
    let _ ← refresh .refreshTokens token.id
    return some newToken) (hset.bind (hcommit.bind (hreload.bind (hreload'.bind rfl))))
  refine ⟨s.step, env.uuid s₁.step, s'.touch.touch, ⟨le_rfl, hstep.trans_le hrest.step_le⟩, hfresh,
    hupdate.bind ?_, ?_⟩
  · rw [if_neg Nat.one_ne_zero, ← hcolumns]
    exact hrest
  · rw [← hcolumns]
    exact hsettled.touch.touch

/-- The unconditional UPDATE of a logout. -/
theorem revoke_ends (h : s.Settled env t before) {token : RefreshToken}
    (ht : token ∈ t.refreshTokens) :
    ∃ m row s', (s.step ≤ m ∧ m < s'.step) ∧ Ends env (revoke token) s (.ok row) s' ∧
      s'.Settled env ((Write.setRevokedAt token.id (env.clock m)).apply t) (t :: before) := by
  have hwhere : updateWhere .refreshTokens (·.id = token.id)
    (.setRevokedAt token.id (env.clock s.step)) s.view =
      some _ := updateWhere_eq_some.mpr ⟨⟨token, h.view.symm ▸ ht, by simp⟩, rfl⟩
  have hissue : Ends env (App.issue (.updateRevokedAt token.id (env.clock s.step))) s.next
    (.ok 1) _ :=
    Program.eval_issue (congrArg (fun found => some (s.next.writeRow found)) hwhere)
  obtain ⟨s', hcommit, hreload, hsettled⟩ := ends_update_commit (τ := .refreshTokens)
    (w := .setRevokedAt token.id (env.clock s.step)) h.next rfl rfl
    (List.mem_map.mpr ⟨token, ht, if_pos rfl⟩) List.mem_cons_self
  have hclock : Ends env App.utcNow s (.ok (env.clock s.step)) s.next := rfl
  have hflush : Ends env (flushOne 1) (s.next.write (.setRevokedAt token.id (env.clock s.step)))
    (.ok ()) _ := rfl
  have hstep : s.step + 2 ≤ s'.step := hcommit.step_le
  exact ⟨s.step, _, s'.touch, ⟨le_rfl, (Nat.le_add_right _ 2).trans_lt (Nat.lt_succ_of_le hstep)⟩,
    hclock.bind (hissue.bind (hflush.bind (hcommit.bind hreload))), hsettled⟩

/-- A new token of a user that exists. -/
theorem create_ends (h : s.Settled env t before) {u : Uuid} (hu : t.hasKey (.primary .users u))
    (hash : String) (expires : Time) : ∃ id s', (∀ τ, ¬ t.hasKey (.primary τ id)) ∧
      Ends env (create u hash expires) s (.ok ⟨id, u, hash, expires, none, none⟩) s' ∧
      s'.Settled env (t.insert .refreshTokens ⟨id, u, hash, expires, none, none⟩)
        (t :: before) := by
  have hok : (Write.insert .refreshTokens ((draft u hash expires).soloRow env s)).Ok t := by
    refine ⟨fun k hk => ?_, fun k hk => ?_⟩
    · obtain rfl := List.mem_singleton.mp hk
      exact h.undrawn .refreshTokens
    · obtain rfl := List.mem_singleton.mp hk
      exact hu
  have hinsert := ends_insert (h.view.symm ▸ hok)
  obtain ⟨s', hcommit, hsettled⟩ := ends_write_commit h hok fun σ id hk =>
    (draft u hash expires).soloRow_drawn env s hk
  have hrow : (draft u hash expires).soloRow env s ∈ s'.view.refreshTokens := by
    rw [hsettled.view]
    exact List.mem_append_right _ (List.mem_singleton_self _)
  have hreload : Ends env _ _ _ _ := ends_refresh (τ := .refreshTokens) hsettled.good.schema hrow
    (i := ((draft u hash expires).soloRow env s).id) (by simp [Table.keys])
  exact ⟨env.uuid s.step, s'.touch, fun τ => h.undrawn τ, hinsert.bind (hcommit.bind hreload),
    hsettled.touch⟩

end RefreshTokenRepository

namespace UserRepository

theorem updateLastLogin_ends (h : s.Settled env t before) {user : User} (hu : user ∈ t.users) :
    ∃ m row s', Ends env (updateLastLogin user) s (.ok row) s' ∧
      s'.Settled env ((Write.setLastLoginAt user.id (env.clock m)).apply t) (t :: before) := by
  have hwhere : updateWhere .users (·.id = user.id) (.setLastLoginAt user.id (env.clock s.step))
    s.view = some _ :=
    updateWhere_eq_some.mpr ⟨⟨user, h.view.symm ▸ hu, by simp⟩, rfl⟩
  have hissue : Ends env (App.issue (.updateLastLoginAt user.id (env.clock s.step))) s.next
    (.ok 1) _ :=
    Program.eval_issue (congrArg (fun found => some (s.next.writeRow found)) hwhere)
  obtain ⟨s', hcommit, hreload, hsettled⟩ := ends_update_commit (τ := .users)
    (w := .setLastLoginAt user.id (env.clock s.step)) h.next rfl rfl
    (List.mem_map.mpr ⟨user, hu, if_pos rfl⟩) List.mem_cons_self
  have hclock : Ends env App.utcNow s (.ok (env.clock s.step)) s.next := rfl
  have hflush : Ends env (flushOne 1) (s.next.write (.setLastLoginAt user.id (env.clock s.step)))
    (.ok ()) _ := rfl
  exact ⟨s.step, _, s'.touch, hclock.bind (hissue.bind (hflush.bind (hcommit.bind hreload))),
    hsettled⟩

end UserRepository

end SecureIam
