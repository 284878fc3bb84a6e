import SecureIam.Accounts.Entry
import SecureIam.Accounts.Rejections

/-!
Calls that are cut off: what the database has then.
-/
namespace SecureIam
open Lib
variable {env : Environment} {t : Tables} {p : Calls env} {x : String} {n : Nat}
    {w : History env Request}

/-- A rotation, row by row. -/
theorem rotated_map (ht : t.Schema) {T c : RefreshToken} (hT : T ∈ t.refreshTokens) (now : Time)
    (hid : ∀ τ, ¬ t.hasKey (.primary τ c.id)) :
    (t.rotated T now c).refreshTokens = (t.refreshTokens.map fun r =>
      if r = T then { r with revokedAt := some now, replacedBy := some c.id } else r) ++ [c] := by
  have hne : ∀ r ∈ t.refreshTokens, r.id ≠ c.id := by
    intro r hr heq
    exact hid .refreshTokens
      (Tables.hasKey_iff.mpr ⟨.refreshTokens, r, hr, by simp [Table.keys, heq]⟩)
  have hc : c.id ≠ T.id := fun heq => hne T hT heq.symm
  have hwrites : (t.rotated T now c).refreshTokens =
      (((Write.setRevokedAt T.id now).apply t).refreshTokens ++ [c]).map fun r =>
        if r.id = T.id then { r with replacedBy := some c.id } else r := rfl
  rw [hwrites, setRevokedAt_map ht hT, List.map_append, List.map_map]
  congr 1
  · refine List.map_congr_left fun r hr => ?_
    by_cases heq : r = T
    · simp [heq]
    · have hid' : r.id ≠ T.id := fun hid' => heq (ht.row_unique (τ := .refreshTokens)
        (k := .primary .refreshTokens T.id)
        hr hT (by simp [Table.keys, hid']) (by simp [Table.keys]))
      simp [heq, hid']
  · simp [hc]

/-- Wherever the refresh of a live token is cut off, the token is as it was, or it is
revoked, and replaced by a new one that is not. -/
theorem rotation_atomic (hp : p.Sound) {T : RefreshToken} (hT : T ∈ p.tables.refreshTokens)
    (hhash : T.tokenHash = env.sha256 x) (hlive : T.revokedAt = none)
    (hcut : p.Cut (.refresh x) n w) :
    w.shared.state.refreshTokens = p.tables.refreshTokens ∨
    ∃ now child, (∀ r ∈ p.tables.refreshTokens, r.id ≠ child.id) ∧
      (child.userId = T.userId ∧ child.revokedAt = none ∧ child.replacedBy = none) ∧
      w.shared.state.refreshTokens = (p.tables.refreshTokens.map fun r =>
        if r = T then { r with revokedAt := some now, replacedBy := some child.id }
        else r) ++ [child] := by
  obtain ⟨out', s', versions, before, hrenewal, -, -, hsuffix⟩ := hp.refresh_cut hcut
  have hversion := hsuffix.subset List.mem_cons_self
  cases hrenewal with
  | ambiguous _ _ _ _ _ =>
      left
      rw [List.mem_singleton.mp hversion]
  | unknown _ _ _ | expired _ _ _ _ _ | ownerless _ _ _ _ _ _ =>
      left
      simp only [List.mem_cons, List.not_mem_nil, or_false] at hversion
      cases hversion with
      | inl h | inr h => simp [h]
  | dead hT' hrevoked _ _ _ | reused hT' hrevoked _ _ _ _
  | familyRevoked hT' hrevoked _ _ _ _ _ _ _ _ _ _ =>
      exact absurd hlive (hT'.only T hT hhash ▸ hrevoked)
  | @rotated T' hT' hlive' hvalid howner k j m hk hj hm childId hid child hchild t₁ ht₁ accessToken
      id now =>
      obtain rfl := hT'.only T hT hhash
      have hcolumns : child.id = childId ∧ child.userId = T.userId ∧ child.revokedAt = none ∧
        child.replacedBy = none :=
        hchild ▸ ⟨rfl, rfl, rfl, rfl⟩
      have hrows := rotated_map hp.inv.schema hT (env.clock m) (hcolumns.1 ▸ hid)
      rw [← ht₁] at hrows
      have hrotated : w.shared.state.refreshTokens = t₁.refreshTokens ∨
          w.shared.state = p.tables := by
        simp only [List.mem_cons, List.not_mem_nil, or_false] at hversion
        cases hversion with
        | inl h => exact .inl (by simp [h])
        | inr h => exact h.imp (congrArg Tables.refreshTokens) fun h => h
      cases hrotated with
      | inl h =>
          refine .inr ⟨env.clock m, child, fun r hr heq => ?_, hcolumns.2, h.trans hrows⟩
          refine hid .refreshTokens (Tables.hasKey_iff.mpr ⟨.refreshTokens, r, hr, ?_⟩)
          simp [Table.keys, heq, hcolumns.1]
      | inr h => exact .inl (congrArg Tables.refreshTokens h)

/-- Cut off between the three row changes and their commit. -/
theorem rotation_atomic_loggedIn : ∃ w, loggedIn.Cut (.refresh (plainEnvironment.token 18)) 9 w ∧
    ∃ T ∈ loggedIn.tables.refreshTokens,
      w.shared.state.refreshTokens = loggedIn.tables.refreshTokens ∨
      ∃ now child, (∀ r ∈ loggedIn.tables.refreshTokens, r.id ≠ child.id) ∧
        (child.userId = T.userId ∧ child.revokedAt = none ∧ child.replacedBy = none) ∧
        w.shared.state.refreshTokens = (loggedIn.tables.refreshTokens.map fun r =>
          if r = T then { r with revokedAt := some now, replacedBy := some child.id }
              else r) ++ [child] := by
  have hcut : ((serve plainEnvironment (.refresh (plainEnvironment.token 18))).runFor
    loggedIn.threads.length
      (.refresh (plainEnvironment.token 18))
      9 (machine plainEnvironment).start loggedIn.world).isSome = true := by
    decide +kernel
  have hlive : ∃ T ∈ loggedIn.tables.refreshTokens,
      T.tokenHash = plainEnvironment.sha256 (plainEnvironment.token 18) ∧ T.revokedAt = none := by
    decide +kernel
  obtain ⟨w, hw⟩ := Option.isSome_iff_exists.mp hcut
  obtain ⟨T, hT, hhash, hlive⟩ := hlive
  exact ⟨w, hw, T, hT, rotation_atomic loggedIn_reachable.sound hT hhash hlive hw⟩

end SecureIam
