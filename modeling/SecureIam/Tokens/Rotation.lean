import SecureIam.Tokens.Reachable

/-!
Concurrent refreshes of one token. Any number of calls may find the token unrevoked;
the conditional UPDATE lets one of them through, and the others learn of it in time.
-/
namespace SecureIam
open Lib
variable {env : Environment} {p : Calls env} {w : History env Request} {r r' T : RefreshToken}
    {i : Nat}
  {th : Thread (machine env) Request Error Response}

/-- One element of a list without repetitions is counted once. -/
theorem countP_eq_one {α : Type} {xs : List α} {q : α → Bool} {x : α} (hn : xs.Nodup) (hx : x ∈ xs)
    (hq : q x) (hunique : ∀ y ∈ xs, q y → y = x) : xs.countP q = 1 := by
  have hperm : (xs.filter q).Perm [x] := by
    refine (List.perm_ext_iff_of_nodup (hn.filter q) (List.nodup_singleton x)).mpr fun y => ?_
    rw [List.mem_filter, List.mem_singleton]
    constructor
    · exact fun hy => hunique y hy.1 hy.2
    · exact fun hy => hy ▸ ⟨hx, hq⟩
  rw [List.countP_eq_length_filter, hperm.length_eq]
  rfl

/-- The owner of a drawn token is the one call that drew it. -/
theorem TokenInv.row_of_hash (hw : TokenInv w) (hd : env.Distinct) (hr : r ∈ w.tokens)
    (hr' : r' ∈ w.tokens) (hhash : r.tokenHash = r'.tokenHash) : r = r' := by
  obtain ⟨e, he, r₀, hm, hev⟩ := hw.issued r hr
  obtain ⟨e', he', r₀', hm', hev'⟩ := hw.issued r' hr'
  obtain ⟨d, u, hin, -, hdraw, -⟩ := hw.drawn e he r₀ hm
  obtain ⟨d', u', hin', -, hdraw', -⟩ := hw.drawn e' he' r₀' hm'
  have hmem := World.mem_own.mp (hin.subset List.mem_cons_self)
  have hmem' := World.mem_own.mp (hin'.subset List.mem_cons_self)
  have hstep : d.step = d'.step := by
    refine hd _ _ ?_
    rw [← hdraw, ← hdraw', ← hev.tokenHash, ← hev'.tokenHash, hhash]
  obtain rfl := hw.sound.placed.step_inj hmem.1 hmem'.1 hstep
  obtain rfl := hw.once e he e' he' r₀ r₀' hm hm' (hmem.2.symm.trans hmem'.2)
  obtain rfl := Mark.issued.inj (hm.symm.trans hm')
  exact hw.families.row_unique hr hr' (hev.id.trans hev'.id.symm)

/-- The call refreshes a token of this hash. -/
def Request.presents (env : Environment) (hash : String) : Request → Bool
  | .refresh (.text x) => env.sha256 x = hash
  | _ => false

theorem Request.presents_iff {hash : String} {req : Request} :
    req.presents env hash ↔ ∃ x : String, req = .refresh x ∧ env.sha256 x = hash := by
  cases req with
  | refresh x => cases x <;> simp [presents]
  | _ => simp [presents]

/-- The call has returned a `TokenResponse`. -/
def Lib.Thread.gotTokens (th : Thread (machine env) Request Error Response) : Bool :=
  match th.outcome with
  | some (.ok (.tokens _)) => true
  | _ => false

def Mark.isIssued : Mark → Bool
  | issued _ => true
  | _ => false

/-- The time that a reading of the clock returned. -/
def Mark.reading : Mark → Option Time
  | read t => some t
  | _ => none

namespace Calls

def succeeded (p : Calls env) (hash : String) (i : Nat) : Bool :=
  (p.threads[i]?).any fun th => th.request.presents env hash && th.gotTokens

/-- How many refreshes of the token succeeded. -/
def successes (p : Calls env) (hash : String) : Nat :=
  (List.range p.threads.length).countP (p.succeeded hash)

/-- How many rows they inserted. -/
def insertions (p : Calls env) (hash : String) : Nat :=
  p.world.trace.countP fun e => e.request.presents env hash && e.mark.isIssued

/-- How many rows are the successor of the token. -/
def children (p : Calls env) (T : RefreshToken) : Nat :=
  p.world.tokens.countP fun c => T.replacedBy = some c.id

/-- Every refresh of the token has ended. -/
def Completed (p : Calls env) (hash : String) : Prop :=
  ∀ th ∈ p.threads, th.request.presents env hash → th.outcome.isSome

/-- Every refresh of the token found it unexpired, in its second statement, and its
owner active, in its third. -/
def FoundFit (p : Calls env) (T : RefreshToken) : Prop :=
  ∀ i < p.threads.length, ∀ th ∈ p.threads[i]?, th.request.presents env T.tokenHash →
    (∀ e ∈ (p.world.own i)[1]?, ∀ t ∈ e.mark.reading, t < T.expiresAt) ∧
    ∀ e ∈ (p.world.own i)[2]?,
      ∃ user ∈ Tables.users e.before.state, user.id = T.userId ∧ user.isActive

theorem succeeded_iff {hash : String} : p.succeeded hash i ↔
    ∃ th, p.threads[i]? = some th ∧ th.request.presents env hash ∧ th.gotTokens := by
  simp [succeeded, Option.any_eq_true]

theorem successes_of_none {hash : String} (hnone : ∀ i, ¬ p.succeeded hash i) :
    p.successes hash = 0 :=
  List.countP_eq_zero.mpr fun i _ => hnone i

namespace Reachable
variable (h : p.Reachable) (hd : env.Distinct)
include h hd

/-- At no statement of the run did two rows share a hash. -/
theorem id_of_hash {e : Entry (machine env) Request} (he : e ∈ p.world.trace)
    (hr : r ∈ tokensOf e.before) (hr' : r' ∈ tokensOf e.before)
    (hhash : r.tokenHash = r'.tokenHash) :
    r.id = r'.id := by
  obtain ⟨x, hx, hev⟩ := (h.evolves_before he).kept r hr
  obtain ⟨x', hx', hev'⟩ := (h.evolves_before he).kept r' hr'
  have heq := h.inv.row_of_hash hd hx hx' (by rw [hev.tokenHash, hev'.tokenHash, hhash])
  rw [← hev.id, ← hev'.id, heq]

variable (hT : T ∈ p.world.tokens)
include hT

/-- A refresh that succeeded rotated the token. -/
theorem rotated (hi : p.succeeded T.tokenHash i) : ∃ c : RefreshToken, T.replacedBy = some c.id ∧
    (∃ e ∈ p.world.own i, e.mark = .guard T.id 1) ∧ ∃ e ∈ p.world.own i, e.mark = .issued c := by
  obtain ⟨th, hth, hreq, hgot⟩ := succeeded_iff.mp hi
  obtain ⟨x, hx, hhash⟩ := Request.presents_iff.mp hreq
  simp only [Thread.gotTokens] at hgot
  split at hgot
  · rename_i response hout
    have hpost := h.outcome hth hout
    rw [hx] at hpost
    obtain ⟨tokens, -, hrot⟩ := hpost
    obtain ⟨T', hT', hhash', -, c, hnext, -, -, hguard, hissued, -⟩ := hrot.rows
    obtain rfl := h.inv.row_of_hash hd hT' hT (hhash'.trans hhash)
    exact ⟨c, hnext, hguard, hissued⟩
  · cases hgot

/-- A refresh that raised rejected the token, and did nothing to it. -/
theorem rejected {error : Error} (hth : p.threads[i]? = some th)
    (hreq : th.request.presents env T.tokenHash) (hout : th.outcome = some (.error error)) :
    error = AuthService.invalidRefreshToken ∧
      (∀ e ∈ p.world.own i, ¬ e.mark.isIssued) ∧ (∀ e ∈ p.world.own i, ¬ e.mark.Revokes T.id) ∧
      ∃ e, (p.world.own i)[0]? = some e ∧
        ∀ T' ∈ tokensOf e.before, T'.tokenHash = T.tokenHash → Unfit p.world i T' := by
  obtain ⟨x, hx, hhash⟩ := Request.presents_iff.mp hreq
  have hpost := h.outcome hth hout
  rw [hx] at hpost
  have hrej : Rejection env x i error p.world := hpost
  obtain ⟨e₀, he₀, hreason⟩ := hrej.reason
  have hmem₀ := (World.mem_own.mp (List.mem_of_getElem? he₀)).1
  have hreason := hreason.resolve_left fun hmany => by
    obtain ⟨-, T₁, hT₁, T₂, hT₂, hne, hhash₁, hhash₂⟩ := hmany
    exact hne (h.id_of_hash hd hmem₀ hT₁ hT₂ (hhash₁.trans hhash₂.symm))
  refine ⟨?_, fun e he hm => ?_, fun e he hm => ?_, e₀, he₀, fun T' hT' hhash' => ?_⟩
  · exact hreason.1
  · cases hmark : e.mark with
    | issued c => exact hrej.issued e he c hmark
    | _ => simp [hmark, Mark.isIssued] at hm
  · obtain ⟨T', hT', hhash', n, hl⟩ := hrej.revokes e he T.id hm
    obtain rfl := h.inv.row_of_hash hd hT' hT (hhash'.trans hhash)
    exact h.inv.families.linear.links_ne hl rfl
  · exact hreason.2 T' hT' (hhash'.trans hhash.symm)

/-- The one refresh that succeeded. -/
theorem succeeded_unique {j : Nat} (hi : p.succeeded T.tokenHash i)
    (hj : p.succeeded T.tokenHash j) :
    i = j := by
  obtain ⟨c, -, ⟨e, he, hm⟩, -⟩ := h.rotated hd hT hi
  obtain ⟨c', -, ⟨e', he', hm'⟩, -⟩ := h.rotated hd hT hj
  have hmem := World.mem_own.mp he
  have hmem' := World.mem_own.mp he'
  rw [← hmem.2, ← hmem'.2]
  exact h.inv.winner e hmem.1 e' hmem'.1 T.id hm hm'

/-- A completed call that inserted a row has succeeded. -/
theorem succeeded_of_issued (hdone : p.Completed T.tokenHash) {e : Entry (machine env) Request}
    (he : e ∈ p.world.trace) (hreq : e.request.presents env T.tokenHash)
    (hm : e.mark.isIssued ∨ e.mark.Revokes T.id) : p.succeeded T.tokenHash e.pid := by
  obtain ⟨th, hth, heq⟩ := h.owned e he
  have hpresents : th.request.presents env T.tokenHash := heq ▸ hreq
  obtain ⟨out, hout⟩ := Option.isSome_iff_exists.mp
    (hdone th (List.mem_of_getElem? hth) hpresents)
  have hown : e ∈ p.world.own e.pid := World.mem_own.mpr ⟨he, rfl⟩
  cases out with
  | error error =>
      obtain ⟨-, hissued, hrevokes, -⟩ := h.rejected hd hT hth hpresents hout
      cases hm with
      | inl hm => exact absurd hm (hissued e hown)
      | inr hm => exact absurd hm (hrevokes e hown)
  | ok response =>
      refine succeeded_iff.mpr ⟨th, hth, hpresents, ?_⟩
      obtain ⟨x, hx, -⟩ := Request.presents_iff.mp hpresents
      have hpost := h.outcome hth hout
      rw [hx] at hpost
      obtain ⟨tokens, rfl, -⟩ := hpost
      simp [Thread.gotTokens, hout]

theorem successes_of_succeeded (hi : p.succeeded T.tokenHash i) : p.successes T.tokenHash = 1 := by
  obtain ⟨th, hth, -⟩ := succeeded_iff.mp hi
  have hlt := (List.getElem?_eq_some_iff.mp hth).1
  exact countP_eq_one List.nodup_range (List.mem_range.mpr hlt) hi
    fun j _ hj => h.succeeded_unique hd hT hj hi

theorem successes_le_one : p.successes T.tokenHash ≤ 1 := by
  by_cases hsome : ∃ i, p.succeeded T.tokenHash i
  · obtain ⟨i, hi⟩ := hsome
    exact (h.successes_of_succeeded hd hT hi).le
  · have hnone : ∀ i, ¬ p.succeeded T.tokenHash i := fun i hi => hsome ⟨i, hi⟩
    simp [successes_of_none hnone]

/-- A token is rotated by the one call that succeeded, and by no other. -/
theorem counts (hdone : p.Completed T.tokenHash) :
    p.insertions T.tokenHash = p.successes T.tokenHash ∧
      p.children T = p.successes T.tokenHash := by
  have hissuer : ∀ e ∈ p.world.trace, e.request.presents env T.tokenHash && e.mark.isIssued →
      p.succeeded T.tokenHash e.pid := by
    intro e he hq
    rw [Bool.and_eq_true] at hq
    exact h.succeeded_of_issued hd hT hdone he hq.1 (.inl hq.2)
  by_cases hsome : ∃ i, p.succeeded T.tokenHash i
  · obtain ⟨i, hi⟩ := hsome
    obtain ⟨c, hnext, -, e, he, hm⟩ := h.rotated hd hT hi
    obtain ⟨th, hth, hreq, -⟩ := succeeded_iff.mp hi
    obtain ⟨he, hpid⟩ := World.mem_own.mp he
    rw [h.successes_of_succeeded hd hT hi]
    constructor
    · refine countP_eq_one h.inv.sound.placed.nodup he ?_ fun e' he' hq' => ?_
      · obtain ⟨th', hth', heq⟩ := h.owned e he
        rw [hpid, hth, Option.some.injEq] at hth'
        subst hth'
        simp [← heq, hreq, hm, Mark.isIssued]
      · have hpid' := h.succeeded_unique hd hT (hissuer e' he' hq') hi
        rw [Bool.and_eq_true] at hq'
        cases hm' : e'.mark with
        | issued c' => exact h.inv.once e' he' e he c' c hm' hm (hpid'.trans hpid.symm)
        | _ => simp [hm', Mark.isIssued] at hq'
    · obtain ⟨y, hy, hid⟩ := h.inv.families.linear.closed T hT c.id hnext
      have hid : y.id = c.id := hid
      have hnodup : p.world.tokens.Nodup := .of_map _ h.inv.families.linear.unique
      refine countP_eq_one hnodup hy (by simp [hnext, hid]) fun y' hy' hq' => ?_
      refine h.inv.families.row_unique hy' hy ?_
      rw [hid]
      simpa [hnext, eq_comm] using hq'
  · have hnone : ∀ i, ¬ p.succeeded T.tokenHash i := fun i hi => hsome ⟨i, hi⟩
    rw [successes_of_none hnone]
    constructor
    · exact List.countP_eq_zero.mpr fun e he hq => hnone _ (hissuer e he hq)
    · refine List.countP_eq_zero.mpr fun y _ hq => ?_
      obtain ⟨e, he, x, r₀, hreq, hhash, hm, -⟩ := h.inv.linked T hT y.id (of_decide_eq_true hq)
      refine hnone e.pid (hissuer e he ?_)
      simp [hreq, Request.presents, hhash, hm, Mark.isIssued]

/-- Of the calls that find the token fit, one succeeds. -/
theorem some_succeeds {p₀ : Calls env} {T₀ : RefreshToken} (hp₀ : p₀.Reachable)
    (hr : Reaches (serve env) p₀ p) (hT₀ : T₀ ∈ p₀.world.tokens) (hid : T₀.id = T.id)
    (hnew : ∀ th ∈ p₀.threads, ¬ th.request.presents env T.tokenHash)
    (hsome : ∃ th ∈ p.threads, th.request.presents env T.tokenHash)
    (hdone : p.Completed T.tokenHash) (hfit : p.FoundFit T)
    (honly : ∀ e ∈ p.world.trace, e.mark.Revokes T.id → e.request.presents env T.tokenHash) :
    ∃ i, p.succeeded T.tokenHash i := by
  obtain ⟨th, hmem, hreq⟩ := hsome
  obtain ⟨i, hth⟩ := List.mem_iff_getElem?.mp hmem
  obtain ⟨out, hout⟩ := Option.isSome_iff_exists.mp (hdone th hmem hreq)
  have hrevoked : Revoked p.world.tokens T.id → ∃ i, p.succeeded T.tokenHash i := by
    intro hrev
    obtain ⟨T', hT', hid', hrev⟩ := hrev
    obtain ⟨e, he, hm⟩ := h.inv.caused T' hT' hrev
    rw [hid'] at hm
    exact ⟨e.pid, h.succeeded_of_issued hd hT hdone he (honly e he hm) (.inr hm)⟩
  cases out with
  | ok response =>
      obtain ⟨x, hx, -⟩ := Request.presents_iff.mp hreq
      have hpost := h.outcome hth hout
      rw [hx] at hpost
      obtain ⟨tokens, rfl, -⟩ := hpost
      exact ⟨i, succeeded_iff.mpr ⟨th, hth, hreq, by simp [Thread.gotTokens, hout]⟩⟩
  | error error =>
      obtain ⟨-, -, -, e₀, he₀, hunfit⟩ := h.rejected hd hT hth hreq hout
      have hown := World.mem_own.mp (List.mem_of_getElem? he₀)
      -- the call is younger than the row
      have hbefore : ∃ T₁ ∈ tokensOf e₀.before, T₀.Evolves T₁ := by
        cases hr.entry hown.1 with
        | inl hold =>
            obtain ⟨th₀, hth₀, -⟩ := hp₀.owned e₀ hold
            rw [hown.2] at hth₀
            obtain ⟨th', hth', heq⟩ := hr.thread hth₀
            obtain rfl := Option.some.inj (hth.symm.trans hth')
            exact absurd (heq ▸ hreq) (hnew th₀ (List.mem_of_getElem? hth₀))
        | inr hsplit =>
            obtain ⟨q, q', hq, -, -, hbefore, -⟩ := hsplit
            rw [← hbefore]
            exact (hp₀.evolves hq).kept T₀ hT₀
      obtain ⟨T₁, hT₁, hev₁⟩ := hbefore
      obtain ⟨T₂, hT₂, hev₂⟩ := (h.evolves_before hown.1).kept T₁ hT₁
      obtain rfl := h.inv.families.row_unique hT₂ hT ((hev₁.trans hev₂).id.trans hid)
      have hlt := (List.getElem?_eq_some_iff.mp hth).1
      obtain ⟨hread, howner⟩ := hfit i hlt th hth hreq
      cases hunfit T₁ hT₁ hev₂.tokenHash.symm with
      | inl hrev => exact hrevoked (hev₂.id ▸ hrev)
      | inr hunfit =>
          cases hunfit with
          | inl hexpired =>
              obtain ⟨e, t, he, hm, hle⟩ := hexpired
              exact absurd (hev₂.expiresAt ▸ hle)
                (not_le.mpr (hread e he t (by simp [hm, Mark.reading])))
          | inr hinactive =>
              obtain ⟨e, he, hall⟩ := hinactive
              obtain ⟨user, huser, hid', hactive⟩ := howner e he
              simp [hall user huser (hid'.trans hev₂.userId)] at hactive

end Reachable
end Calls

/-- At most one refresh of a token succeeds, and inserts the token's one successor; the
others raise and insert nothing. If the token stays fit and only they revoke it, one does. -/
theorem refresh_succeeds_once (hd : env.Distinct) (h : p.Reachable) (hT : T ∈ p.world.tokens) :
    p.successes T.tokenHash ≤ 1 ∧
    (p.Completed T.tokenHash → p.insertions T.tokenHash = p.successes T.tokenHash ∧
      p.children T = p.successes T.tokenHash) ∧
    (∀ i th, p.threads[i]? = some th → th.request.presents env T.tokenHash → ¬ th.gotTokens →
      ∀ out, th.outcome = some out → out = .error AuthService.invalidRefreshToken ∧
        ∀ e ∈ p.world.own i, ¬ e.mark.isIssued) ∧
    ∀ (p₀ : Calls env) (T₀ : RefreshToken), p₀.Reachable → Reaches (serve env) p₀ p →
      T₀ ∈ p₀.world.tokens → T₀.id = T.id → T₀.revokedAt = none →
      (∀ th ∈ p₀.threads, ¬ th.request.presents env T.tokenHash) →
      (∃ th ∈ p.threads, th.request.presents env T.tokenHash) →
      (∀ e ∈ p.world.trace, e.mark.Revokes T.id → e.request.presents env T.tokenHash) →
      p.FoundFit T → p.Completed T.tokenHash → p.successes T.tokenHash = 1 := by
  refine ⟨h.successes_le_one hd hT, h.counts hd hT, fun i th hth hreq hlost out hout => ?_, ?_⟩
  · cases out with
    | error error =>
        obtain ⟨rfl, hissued, -⟩ := h.rejected hd hT hth hreq hout
        exact ⟨rfl, hissued⟩
    | ok response =>
        obtain ⟨x, hx, -⟩ := Request.presents_iff.mp hreq
        have hpost := h.outcome hth hout
        rw [hx] at hpost
        obtain ⟨tokens, rfl, -⟩ := hpost
        simp [Thread.gotTokens, hout] at hlost
  · intro p₀ T₀ hp₀ hr hT₀ hid _ hnew hsome honly hfit hdone
    obtain ⟨i, hi⟩ := h.some_succeeds hd hT hp₀ hr hT₀ hid hnew hsome hdone hfit honly
    exact h.successes_of_succeeded hd hT hi

/-- Two refreshes that both find the token unrevoked. -/
def raced : Calls plainEnvironment :=
  loggedIn.played (serve plainEnvironment)
    [.spawn (.refresh (plainEnvironment.token 18)), .spawn (.refresh (plainEnvironment.token 18)),
      .exec 2, .exec 3, .finish 2, .finish 3]

instance (T : RefreshToken) : Decidable (p.FoundFit T) := inferInstanceAs (Decidable (∀ _ < _, _))

instance (hash : String) : Decidable (p.Completed hash) := inferInstanceAs (Decidable (∀ _ ∈ _, _))

theorem refresh_succeeds_once_raced :
    raced.successes (plainEnvironment.token 18) = 1 ∧
    raced.insertions (plainEnvironment.token 18) = raced.successes (plainEnvironment.token 18) := by
  have hT : (⟨⟨40⟩, ⟨2⟩, plainEnvironment.token 18, 604819000000, some 30000000, some ⟨64⟩⟩ :
      RefreshToken) ∈ raced.world.tokens := by decide +kernel
  obtain ⟨-, hcounts, -, hone⟩ :=
    refresh_succeeds_once plainEnvironment_distinct (loggedIn_reachable.played _) hT
  refine ⟨hone loggedIn ⟨⟨40⟩, ⟨2⟩, plainEnvironment.token 18, 604819000000, none, none⟩
    loggedIn_reachable (Pool.played_reaches _ _ _) ?_ ?_ ?_ ?_ ?_ ?_ ?_ ?_, (hcounts ?_).1⟩
  all_goals decide +kernel

end SecureIam
