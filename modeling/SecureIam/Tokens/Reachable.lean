import SecureIam.Tokens.Calls

/-!
What holds of `refresh_tokens` after any run of any calls.
-/
namespace SecureIam
open Lib
variable {env : Environment} {p p' : Calls env}

/-- A linear chain, in the state that the migrations leave. -/
theorem tokenInv_fresh {t : Tables} (h : t.Seeded env) : TokenInv (Calls.fresh env t).world := by
  have hnil : (Calls.fresh env t).world.tokens = [] := h.refreshTokens
  have hempty : ∀ e, e ∉ (Calls.fresh env t).world.trace := fun _ => List.not_mem_nil
  constructor
  · refine ⟨h.schema, ⟨fun m τ _ => h.undrawn m τ, fun _ _ _ _ hk => nomatch hk⟩,
      fun _ _ hk => (nomatch hk), fun n e he => ?_⟩
    cases he
  · rw [hnil]
    exact ⟨Chaining.Linear.nil, by simp, by simp⟩
  · exact fun e he => absurd he (hempty e)
  · exact fun e he => absurd he (hempty e)
  · simp [hnil]
  · simp [hnil]
  · exact fun e he => absurd he (hempty e)
  · exact fun e he => absurd he (hempty e)
  · simp [hnil]
  · simp [hnil]
  · exact fun e he => absurd he (hempty e)

namespace Calls.Reachable
variable (h : p.Reachable)
include h

theorem kept : (tokenProtocol env).Kept (TokenPost env) p := by
  obtain ⟨t, ht, hr⟩ := h
  exact (Protocol.kept_start (tokenInv_fresh ht) rfl).reaches (serve_keeps env) hr

theorem inv : TokenInv p.world := h.kept.inv

/-- From one reachable state to a later one the rows only evolve. -/
theorem evolves (hr : Reaches (serve env) p p') : Evolves p.world.tokens p'.world.tokens :=
  h.kept.across (E := fun w w' => Evolves w.tokens w'.tokens) (serve_keeps env) hr
    (fun _ => .refl _) Evolves.trans id

theorem reaches (hr : Reaches (serve env) p p') : p'.Reachable := by
  obtain ⟨t, ht, hr₀⟩ := h
  exact ⟨t, ht, hr₀.trans hr⟩

theorem outcome {i : Nat} {th : Thread (machine env) Request Error Response}
    {out : Except Error Response} (hth : p.threads[i]? = some th) (hout : th.outcome = some out) :
    TokenPost env th.request i out th.session p.world :=
  h.kept.outcome hth (Thread.code_of_outcome hout)

theorem owned : p.Owned := by
  obtain ⟨t, ht, hr⟩ := h
  exact hr.owned fun e he => absurd he List.not_mem_nil

/-- What the rows were when a statement was issued, and what they are by now. -/
theorem entry {e : Entry (machine env) Request} (he : e ∈ p.world.trace) :
    ∃ q q' : Calls env, q.Reachable ∧ Step (serve env) q q' ∧ Reaches (serve env) q' p ∧
      q.world.shared = e.before ∧ q'.world.shared = e.after ∧
      q'.world.trace = q.world.trace ++ [e] := by
  obtain ⟨t, ht, hr⟩ := h
  cases hr.entry he with
  | inl he => cases he
  | inr hsplit =>
      obtain ⟨q, q', hq, hsplit⟩ := hsplit
      exact ⟨q, q', ⟨t, ht, hq⟩, hsplit⟩

theorem evolves_before {e : Entry (machine env) Request} (he : e ∈ p.world.trace) :
    Evolves (tokensOf e.before) p.world.tokens := by
  obtain ⟨q, q', hq, hs, hr, hbefore, -⟩ := h.entry he
  rw [← hbefore]
  exact hq.evolves (.head hs hr)

end Calls.Reachable

/-- The calls of a schedule, on empty tables. -/
def Calls.after (env : Environment) (acts : List (Act Request)) : Calls env :=
  (Calls.fresh env {}).played (serve env) acts

theorem Tables.seeded_empty (env : Environment) : Tables.Seeded env {} := by
  have hrows : ∀ τ, ({} : Tables).rows τ = [] := fun τ => by cases τ <;> rfl
  refine ⟨⟨fun τ => ?_, fun τ r hr => ?_⟩, fun m τ => ?_, rfl, rfl, rfl, rfl, rfl, rfl⟩
  · rw [hrows]
    exact .nil
  · rw [hrows] at hr
    cases hr
  · rw [Tables.hasKey, hrows]
    simp

theorem Calls.reachable_after (env : Environment) (acts : List (Act Request)) :
    (Calls.after env acts).Reachable :=
  ⟨{}, Tables.seeded_empty env, Pool.played_reaches _ _ _⟩

theorem Calls.Reachable.played (h : p.Reachable) (acts : List (Act Request)) :
    Calls.Reachable (p.played (serve env) acts) :=
  h.reaches (Pool.played_reaches _ _ _)

/-- The rows of `refresh_tokens` form finite simple paths from logins to at most one
unrevoked token each, and no step undoes a revocation or a link. -/
theorem families_are_paths (h : p.Reachable) :
    (∃ paths, rotation.Paths p.world.tokens paths ∧
      ∀ path ∈ paths,
        (∀ r, path.head? = some r → ∃ e ∈ p.world.trace, e.request.isLogin ∧
          ∃ r₀, e.mark = .issued r₀ ∧ r₀.id = r.id) ∧
        (∀ r ∈ path, ∀ r' ∈ path, r.userId = r'.userId) ∧
        ∀ r ∈ path, r.revokedAt = none → path.getLast? = some r) ∧
    (∀ r ∈ p.world.tokens, ∀ r' ∈ p.world.tokens, ∀ c, r.replacedBy = some c →
      r'.replacedBy = some c → r = r') ∧
    (∀ n a, ¬ rotation.Links p.world.tokens (n + 1) a a) ∧
    (∀ r ∈ p.world.tokens, r.replacedBy ≠ none → r.revokedAt ≠ none) ∧
    ∀ p', Step (serve env) p p' → ∀ r ∈ p.world.tokens, ∃ r' ∈ p'.world.tokens, r'.id = r.id ∧
      (r.revokedAt ≠ none → r'.revokedAt ≠ none) ∧
      ∀ c, r.replacedBy = some c → r'.replacedBy = some c := by
  have hinv := h.inv
  have hfam := hinv.families
  refine ⟨?_, hfam.linear.single, fun n a hl => hfam.linear.links_ne hl rfl, hfam.superseded,
    fun p' hs r hr => ?_⟩
  · obtain ⟨paths, hpaths⟩ := hfam.linear.exists_paths
    refine ⟨paths, hpaths, fun path hpath => ⟨fun r hr => ?_, fun r hr r' hr' => ?_,
      fun r hr hlive => ?_⟩⟩
    · have hrow := hpaths.mem_rows hpath (List.mem_of_head? hr)
      cases hinv.rooted r hrow with
      | inl hpred =>
          obtain ⟨q, hq, hn⟩ := hpred
          exact absurd hn (hpaths.root path hpath r hr q hq)
      | inr hlogin => exact hlogin
    · exact hpaths.agree hfam.owner hpath hr hr'
    · refine hpaths.last_of_none hpath hr ?_
      by_contra hne
      exact hfam.superseded r (hpaths.mem_rows hpath hr) hne hlive
  · obtain ⟨r', hr', hev⟩ := (h.evolves (.single hs)).kept r hr
    refine ⟨r', hr', hev.id, hev.revoked, fun c hc => (hev.frozen ?_).trans hc⟩
    exact hfam.superseded r hr (by simp [hc])

/-- One user, and one login: its token is the string of 18 letters. -/
def loggedIn : Calls plainEnvironment :=
  Calls.after plainEnvironment
    [.spawn (.register "a" "p"), .finish 0, .spawn (.login "a" "p"), .finish 1]

theorem loggedIn_reachable : loggedIn.Reachable := Calls.reachable_after _ _

/-- Its first refresh. -/
def rotatedOnce : Calls plainEnvironment :=
  loggedIn.played (serve plainEnvironment) [.spawn (.refresh (plainEnvironment.token 18)),
    .finish 2]

theorem families_are_paths_rotatedOnce :
    rotatedOnce.world.tokens.map (fun r => (r.id, r.replacedBy)) =
      [(⟨40⟩, some ⟨62⟩), (⟨62⟩, none)] ∧
    (∀ n a, ¬ rotation.Links rotatedOnce.world.tokens (n + 1) a a) ∧
    ∀ r ∈ rotatedOnce.world.tokens, r.replacedBy ≠ none → r.revokedAt ≠ none := by
  have hreachable : rotatedOnce.Reachable := loggedIn_reachable.played _
  have hpaths := families_are_paths hreachable
  exact ⟨by decide +kernel, hpaths.2.2.1, hpaths.2.2.2.1⟩

end SecureIam
