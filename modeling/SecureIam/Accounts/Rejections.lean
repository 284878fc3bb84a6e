import SecureIam.Accounts.Renewal
import SecureIam.Tokens.Reachable

/-!
A refresh that is rejected: which rows it may touch.
-/
namespace SecureIam
open Lib
variable {env : Environment} {t t' : Tables} {p p' : Calls env} {x : String} {e : Error}

theorem leaf_links {steps : Nat} {id : Uuid} {L : RefreshToken} (h : t.leaf steps id = some L) :
    ∃ n < steps, rotation.Links t.refreshTokens n id L.id := by
  induction steps generalizing id with
  | zero => cases h
  | succ steps ih =>
      simp only [Tables.leaf] at h
      split at h
      · cases h
      · rename_i first hfirst
        obtain ⟨hmem, hid⟩ := Tables.token?_eq_some hfirst
        split at h
        · rename_i second hnext
          obtain ⟨n, hn, hlinks⟩ := ih h
          exact ⟨n + 1, Nat.succ_lt_succ hn, Chaining.links_succ_left.mpr
            ⟨second, ⟨first, hmem, hid, hnext⟩, hlinks⟩⟩
        · cases h
          exact ⟨0, steps.succ_pos, hid.symm⟩

/-- The UPDATE of one row. -/
theorem setRevokedAt_map (ht : t.Schema) {L : RefreshToken} (hL : L ∈ t.refreshTokens)
    (now : Time) :
    ((Write.setRevokedAt L.id now).apply t).refreshTokens =
      t.refreshTokens.map fun r => if r = L then { r with revokedAt := some now } else r := by
  refine List.map_congr_left fun r hr => ?_
  by_cases hid : r.id = L.id
  · have heq : r = L := ht.row_unique (τ := .refreshTokens)
      (k := .primary .refreshTokens L.id) hr hL (by simp [Table.keys, hid]) (by simp [Table.keys])
    rw [if_pos hid, if_pos heq]
  · have hne : r ≠ L := fun heq => hid (congrArg RefreshToken.id heq)
    rw [if_neg hid, if_neg hne]

/-- What the walk of a replay may do to the tokens. -/
structure LeafRevoked (env : Environment) (x : String) (n n' : Nat)
    (tokens tokens' : List RefreshToken) (T L : RefreshToken) : Prop where
  presented : T ∈ tokens
  hash : T.tokenHash = env.sha256 x
  revoked : T.revokedAt ≠ none
  replaced : T.replacedBy ≠ none
  leaf : L ∈ tokens
  live : L.revokedAt = none
  below : ∃ n, rotation.Links tokens (n + 1) T.id L.id
  effect : ∃ m, (n ≤ m ∧ m < n') ∧
    tokens' = tokens.map fun r => if r = L then { r with revokedAt := some (env.clock m) } else r

theorem Renewal.rejected {out : Except Error TokenResponse} {n n' : Nat} {versions : List Tables}
    (h : Renewal env t x n n' out versions) (ht : t.Schema)
    (hout : out.map Response.tokens = .error e) (hhead : versions.head? = some t') :
    t'.users = t.users ∧
      (t'.refreshTokens = t.refreshTokens ∨
        ∃ T L, LeafRevoked env x n n' t.refreshTokens t'.refreshTokens T L) := by
  cases h with
  | ambiguous _ _ _ _ _ | unknown _ _ _ | dead _ _ _ _ _ | reused _ _ _ _ _ _ | expired _ _ _ _ _
  | ownerless _ _ _ _ _ _ =>
      cases hhead
      exact ⟨rfl, .inl rfl⟩
  | rotated _ _ _ _ _ _ _ _ _ _ => cases hout
  | @familyRevoked T L next hT hrevoked hnext hleaf hlive m hm t₁ t₂ ht₁ id id' now now' ht₂ =>
      cases hhead
      subst ht₂ ht₁
      refine ⟨rfl, .inr ⟨T, L, hT.mem, hT.hash, hrevoked, hnext ▸ Option.some_ne_none next,
        (Tables.leaf_eq_some hleaf).1, hlive, ?_, m, hm, setRevokedAt_map ht
        (Tables.leaf_eq_some hleaf).1 _⟩⟩
      obtain ⟨n, -, hlinks⟩ := leaf_links hleaf
      exact ⟨n, Chaining.links_succ_left.mpr ⟨next, ⟨T, hT.mem, rfl, hnext⟩, hlinks⟩⟩

end SecureIam
