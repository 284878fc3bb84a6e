import SecureIam.Db.Steps

/-!
What each statement returns and leaves behind, in terms of what it finds. A session
without pending writes finds the committed rows.
-/
namespace SecureIam
open Lib
variable {env : Environment} {n i : Nat} {g g' : Database} {l l' : Session}

theorem exec_utcNow {t : Time} (h : exec env n i .utcNow g l = some (t, g', l')) :
    t = env.clock n ∧ g' = g ∧ l' = l := by
  simp only [exec, Option.some.injEq, Prod.mk.injEq] at h
  exact ⟨h.1.symm, h.2.1.symm, h.2.2.symm⟩

theorem exec_uuid4 {id : Uuid} (h : exec env n i .uuid4 g l = some (id, g', l')) :
    id = env.uuid n ∧ g' = g ∧ l' = l := by
  simp only [exec, Option.some.injEq, Prod.mk.injEq] at h
  exact ⟨h.1.symm, h.2.1.symm, h.2.2.symm⟩

theorem exec_tokenUrlsafe {token : String}
    (h : exec env n i .tokenUrlsafe g l = some (token, g', l')) :
    token = env.token n ∧ g' = g ∧ l' = l := by
  simp only [exec, Option.some.injEq, Prod.mk.injEq] at h
  exact ⟨h.1.symm, h.2.1.symm, h.2.2.symm⟩

theorem exec_hashPassword {password hash : String}
    (h : exec env n i (.hashPassword password) g l = some (hash, g', l')) :
    hash = env.hashPassword n password ∧ g' = g ∧ l' = l := by
  simp only [exec, Option.some.injEq, Prod.mk.injEq] at h
  exact ⟨h.1.symm, h.2.1.symm, h.2.2.symm⟩

theorem exec_select {τ : Table} {q : Tables → List τ.Row} {rows : List τ.Row}
    (h : exec env n i (.select τ q) g l = some (rows, g', l')) :
    rows = (q (l.view g)).map (l.object τ) ∧ g' = g ∧ l' = (l.touch n).load τ (q (l.view g)) := by
  simp only [exec, Option.some.injEq, Prod.mk.injEq] at h
  exact ⟨h.1.symm, h.2.1.symm, h.2.2.symm⟩

theorem exec_refresh {τ : Table} {id : Uuid} {row : Option τ.Row}
    (h : exec env n i (.refresh τ id) g l = some (row, g', l'))
    (hkey : (l.view g).hasKey (.primary τ id)) :
    ∃ x ∈ (l.view g).rows τ, .primary τ id ∈ τ.keys x ∧ row = some x ∧ g' = g ∧
      l' = (l.touch n).reload τ x := by
  simp only [Tables.hasKey, List.any_eq_true] at hkey
  obtain ⟨x, hx⟩ := Option.isSome_iff_exists.mp (List.find?_isSome.mpr hkey)
  have hfind : ((l.view g).rows τ).find? (.primary τ id ∈ τ.keys ·) = some x := hx
  simp only [exec, hfind, Option.some.injEq, Prod.mk.injEq] at h
  refine ⟨x, List.mem_of_find?_eq_some hfind, ?_, h.1.symm, h.2.1.symm, h.2.2.symm⟩
  simpa using List.find?_some hfind

theorem exec_refresh_some {τ : Table} {id : Uuid} {row : τ.Row}
    (h : exec env n i (.refresh τ id) g l = some (some row, g', l')) :
    row ∈ (l.view g).rows τ ∧ .primary τ id ∈ τ.keys row := by
  simp only [exec] at h
  split at h
  · cases h
  · rename_i x hfind
    simp only [Option.some.injEq, Prod.mk.injEq] at h
    obtain ⟨rfl, -, -⟩ := h
    exact ⟨List.mem_of_find?_eq_some hfind, by simpa using List.find?_some hfind⟩

theorem exec_insert {τ : Table} {draft : τ.Draft} {row : Option τ.Row}
    (h : exec env n i (.insert τ draft) g l = some (row, g', l')) :
    row = none ∨ row = some (draft.row (env.uuid n) (l.now env n)) := by
  simp only [exec, Option.map_eq_some_iff] at h
  obtain ⟨g₁, -, h⟩ := h
  split at h
  all_goals simp only [Prod.mk.injEq] at h
  · exact .inr h.1.symm
  · exact .inl h.1.symm

/-- The row of an INSERT that goes through is pending. -/
theorem exec_insert_some {τ : Table} {draft : τ.Draft} {row : τ.Row}
    (h : exec env n i (.insert τ draft) g l = some (some row, g', l')) :
    row = draft.row (env.uuid n) (l.now env n) ∧ l'.pending = l.pending ++ [.insert τ row] := by
  simp only [exec, Option.map_eq_some_iff] at h
  obtain ⟨g₁, -, h⟩ := h
  split at h
  all_goals simp only [Prod.mk.injEq, Option.some.injEq, reduceCtorEq, false_and] at h
  obtain ⟨rfl, -, rfl⟩ := h
  exact ⟨rfl, by simp⟩

/-- An INSERT is refused for a key that exists, or a reference that does not. -/
theorem exec_insert_none {τ : Table} {draft : τ.Draft}
    (h : exec env n i (.insert τ draft) g l = some (none, g', l')) :
    ¬ (Write.insert τ (draft.row (env.uuid n) (l.now env n))).Ok (l.view g) ∧
      l'.pending = l.pending := by
  simp only [exec, Option.map_eq_some_iff] at h
  obtain ⟨g₁, -, h⟩ := h
  split at h
  all_goals simp only [Prod.mk.injEq, true_and, reduceCtorEq, false_and] at h
  obtain ⟨-, rfl⟩ := h
  exact ⟨‹_›, rfl⟩

/-- An INSERT whose only key is drawn for it, and whose references exist, goes through. -/
theorem exec_insert_fresh {τ : Table} {draft : τ.Draft} {row : Option τ.Row} (hf : Fresh env n g)
    (hl : schema.Open i l.pending g)
    (hkeys : ∀ id now, τ.keys (draft.row id now) = [.primary τ id])
    (href : ∀ k ∈ τ.references (draft.row (env.uuid n) (l.now env n)), (l.view g).hasKey k)
    (h : exec env n i (.insert τ draft) g l = some (row, g', l')) :
    row = some (draft.row (env.uuid n) (l.now env n)) ∧
      l' = ((l.touch n).push (.insert τ (draft.row (env.uuid n) (l.now env n)))).reload τ
        (draft.row (env.uuid n) (l.now env n)) := by
  have hok : (Write.insert τ (draft.row (env.uuid n) (l.now env n))).Ok (l.view g) := by
    refine ⟨fun k hk hkey => ?_, href⟩
    have hk' : k ∈ τ.keys (draft.row (env.uuid n) (l.now env n)) := hk
    rw [hkeys, List.mem_singleton] at hk'
    subst hk'
    cases hasKey_view hl hkey with
    | inl hkey => exact hf.undrawn n τ n.le_refl hkey
    | inr hlock => exact hf.unlocked n τ i n.le_refl hlock
  simp only [exec, Option.map_eq_some_iff, if_pos hok, Prod.mk.injEq] at h
  obtain ⟨g₁, -, hrow, -, hl'⟩ := h
  exact ⟨hrow.symm, hl'.symm⟩

theorem exec_updateLastLoginAt {id : Uuid} {t : Time} {c : Nat}
    (hkey : ∃ r ∈ (l.view g).users, r.id = id)
    (h : exec env n i (.updateLastLoginAt id t) g l = some (c, g', l')) :
    c = 1 ∧ l'.pending = l.pending ++ [.setLastLoginAt id t] := by
  obtain ⟨r, hr, hid⟩ := hkey
  simp only [exec] at h
  cases writeRow_eq_some.mp h with
  | inl h => exact absurd (by simp [hid]) (updateWhere_eq_none.mp h.1 r hr)
  | inr h =>
      obtain ⟨w, hw, rfl, -, rfl⟩ := h
      obtain ⟨-, rfl⟩ := updateWhere_eq_some.mp hw
      exact ⟨rfl, rfl⟩

theorem exec_revokeIfActive {id : Uuid} {t : Time} {c : Nat}
    (h : exec env n i (.revokeIfActive id t) g l = some (c, g', l')) :
    (c = 0 ∧ (∀ r ∈ (l.view g).refreshTokens, r.id = id → r.revokedAt ≠ none) ∧ g' = g ∧
      l' = (l.touch n).amendToken id fun r =>
        if r.revokedAt = none then { r with revokedAt := some t } else r) ∨
    (c = 1 ∧ (∃ r ∈ (l.view g).refreshTokens, r.id = id ∧ r.revokedAt = none) ∧
      g.write i (.setRevokedAt id t) = some g' ∧
      l'.pending = l.pending ++ [.setRevokedAt id t]) := by
  simp only [exec] at h
  cases writeRow_eq_some.mp h with
  | inl h =>
      obtain ⟨hnone, rfl, rfl, rfl⟩ := h
      refine .inl ⟨rfl, fun r hr hid hlive => ?_, rfl, rfl⟩
      exact updateWhere_eq_none.mp hnone r hr (by simp [hid, hlive])
  | inr h =>
      obtain ⟨w, hw, rfl, hg, rfl⟩ := h
      obtain ⟨⟨r, hr, hp⟩, rfl⟩ := updateWhere_eq_some.mp hw
      exact .inr ⟨rfl, ⟨r, hr, by simpa using hp⟩, hg, rfl⟩

theorem exec_updateRevokedAt {id : Uuid} {t : Time} {c : Nat}
    (hkey : ∃ r ∈ (l.view g).refreshTokens, r.id = id)
    (h : exec env n i (.updateRevokedAt id t) g l = some (c, g', l')) :
    c = 1 ∧ g.write i (.setRevokedAt id t) = some g' ∧
      l'.pending = l.pending ++ [.setRevokedAt id t] := by
  obtain ⟨r, hr, hid⟩ := hkey
  simp only [exec] at h
  cases writeRow_eq_some.mp h with
  | inl h => exact absurd (by simp [hid]) (updateWhere_eq_none.mp h.1 r hr)
  | inr h =>
      obtain ⟨w, hw, rfl, hg, rfl⟩ := h
      obtain ⟨-, rfl⟩ := updateWhere_eq_some.mp hw
      exact ⟨rfl, hg, rfl⟩

theorem exec_updateReplacedBy {id child : Uuid} {c : Option Nat}
    (hkey : ∃ r ∈ (l.view g).refreshTokens, r.id = id)
    (hchild : (l.view g).hasKey (.primary .refreshTokens child))
    (h : exec env n i (.updateReplacedBy id child) g l = some (c, g', l')) :
    c = some 1 ∧ l'.pending = l.pending ++ [.setReplacedBy id child] := by
  obtain ⟨r, hr, hid⟩ := hkey
  have hok : (Write.setReplacedBy id child).Ok (l.view g) := by
    refine ⟨fun k hk => absurd hk List.not_mem_nil, fun k hk => ?_⟩
    obtain rfl := List.mem_singleton.mp hk
    exact hchild
  simp only [exec, if_pos hok, Option.map_eq_some_iff, Prod.mk.injEq] at h
  obtain ⟨⟨c', g₁, l₁⟩, h, rfl, -, rfl⟩ := h
  cases writeRow_eq_some.mp h with
  | inl h => exact absurd (by simp [hid]) (updateWhere_eq_none.mp h.1 r hr)
  | inr h =>
      obtain ⟨w, hw, rfl, -, rfl⟩ := h
      obtain ⟨-, rfl⟩ := updateWhere_eq_some.mp hw
      exact ⟨rfl, rfl⟩

theorem exec_commit {r : Unit} (h : exec env n i .commit g l = some (r, g', l')) :
    g' = g.commit i l.pending ∧ l' = { l with began := none, pending := [] } := by
  simp only [exec, Option.some.injEq, Prod.mk.injEq] at h
  exact ⟨h.2.1.symm, h.2.2.symm⟩

theorem exec_rollback {r : Unit} (h : exec env n i .rollback g l = some (r, g', l')) :
    g' = g.rollback i ∧ l' = {} := by
  simp only [exec, Option.some.injEq, Prod.mk.injEq] at h
  exact ⟨h.2.1.symm, h.2.2.symm⟩

end SecureIam
