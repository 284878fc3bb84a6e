import SecureIam.Tokens.Walk

/-!
What each call leaves behind, in the rows and in its part of the trace: whose
revocation it is, whose new token, and why a refresh was rejected.
-/
namespace SecureIam
open Lib
variable {env : Environment} {α : Type} {i : Nat} {req : Request} {l l' : Session}
  {u v w w' : History env Request} {x : String} {Q : Protocol.Post (machine env) Request Error α}

/-- The call rotated the token with the hash of `x` and returned its successor. -/
structure Rotation (env : Environment) (x : String) (i : Nat) (response : TokenResponse)
    (w : History env Request) : Prop where
  rows : ∃ p ∈ w.tokens, p.tokenHash = env.sha256 x ∧ p.revokedAt ≠ none ∧
    ∃ c : RefreshToken, p.replacedBy = some c.id ∧ c.userId = p.userId ∧
      c.tokenHash = env.sha256 response.refreshToken ∧
      (∃ e ∈ w.own i, e.mark = .guard p.id 1) ∧ (∃ e ∈ w.own i, e.mark = .issued c) ∧
      ∀ e ∈ w.own i, ∀ id, e.mark.Revokes id → id = p.id

/-- Why a presented token is not rotated: it is revoked, or the second statement of
the call found it expired, or the third found no active owner. -/
def Unfit (w : History env Request) (i : Nat) (T : RefreshToken) : Prop :=
  Revoked w.tokens T.id ∨
  (∃ e t, (w.own i)[1]? = some e ∧ e.mark = .read t ∧ T.expiresAt ≤ t) ∨
  ∃ e, (w.own i)[2]? = some e ∧
    ∀ user ∈ Tables.users e.before.state, user.id = T.userId → user.isActive = false

/-- The call raised, and inserted nothing. -/
structure Rejection (env : Environment) (x : String) (i : Nat) (error : Error)
    (w : History env Request) : Prop where
  issued : ∀ e ∈ w.own i, ∀ c, e.mark ≠ .issued c
  revokes : ∀ e ∈ w.own i, ∀ id, e.mark.Revokes id → ∃ T ∈ w.tokens, T.tokenHash = env.sha256 x ∧
    ∃ n, rotation.Links w.tokens (n + 1) T.id id
  reason : ∃ e, (w.own i)[0]? = some e ∧
    ((error = .multipleResultsFound ∧ ∃ T ∈ tokensOf e.before, ∃ T' ∈ tokensOf e.before,
        T.id ≠ T'.id ∧ T.tokenHash = env.sha256 x ∧ T'.tokenHash = env.sha256 x) ∨
      (error = AuthService.invalidRefreshToken ∧
        ∀ T ∈ tokensOf e.before, T.tokenHash = env.sha256 x → Unfit w i T))

/-- What a logout did, if it found an unrevoked token. -/
structure Logout (env : Environment) (x : String) (i : Nat) (out : Except Error Response)
    (w : History env Request) : Prop where
  idle : ∀ e ∈ w.own i, e.mark.Idle ∨ ∃ T ∈ tokensOf e.before,
    e.mark = .flush T.id 1 ∧ T.tokenHash = env.sha256 x ∧ Revoked w.tokens T.id ∧
      (T.replacedBy = none → Dead w.tokens T.id)
  found : ∃ e, (w.own i)[0]? = some e ∧ (out = .ok .done → ∀ T ∈ tokensOf e.before,
    T.tokenHash = env.sha256 x → T.revokedAt = none → ∃ e' ∈ w.own i, e'.mark = .flush T.id 1)

def TokenPost (env : Environment) (req : Request) (i : Nat) :
    Protocol.Post (machine env) Request Error Response := fun out _ w =>
  match req with
  | .refresh (.text x) =>
      match out with
      | .ok response => ∃ tokens, response = .tokens tokens ∧ Rotation env x i tokens w
      | .error error => Rejection env x i error w
  | .logout (.text x) => Logout env x i out w
  | .refresh (.surrogate _ _ _) | .logout (.surrogate _ _ _) =>
      out = .error .unicodeEncodeError ∧ ∀ e ∈ w.own i, e.mark.Idle
  | .login _ _ => ∀ e ∈ w.own i, ∀ id, ¬ e.mark.Revokes id
  | _ => ∀ e ∈ w.own i, e.mark.Idle

theorem Rotation.passed {response : TokenResponse} (h : Rotation env x i response w)
    (hp : Passed i w w') : Rotation env x i response w' := by
  obtain ⟨p, hpw, hhash, hrev, c, hnext, huser, hchash, hguard, hissued, honly⟩ := h.rows
  obtain ⟨p', hpw', hev⟩ := hp.evolves.kept p hpw
  obtain ⟨e, he, hm⟩ := hguard
  obtain ⟨e', he', hm'⟩ := hissued
  refine ⟨p', hpw', hev.tokenHash.trans hhash, hev.revoked hrev, c, (hev.frozen hrev).trans hnext,
    huser.trans hev.userId.symm, hchash, ⟨e, hp.mem he, hm.trans (hev.id ▸ rfl)⟩,
    ⟨e', hp.mem he', hm'⟩, fun e he id hm => ?_⟩
  cases hp.cases he with
  | inl he => exact (honly e he id hm).trans hev.id.symm
  | inr hidle => exact absurd hm (hidle.1 id)

theorem Unfit.passed {T : RefreshToken} (h : Unfit w i T) (hp : Passed i w w') : Unfit w' i T := by
  cases h with
  | inl hrev => exact .inl (hrev.evolves hp.evolves)
  | inr h =>
      cases h with
      | inl h =>
          obtain ⟨e, t, he, hrest⟩ := h
          exact .inr (.inl ⟨e, t, hp.getElem? he, hrest⟩)
      | inr h =>
          obtain ⟨e, he, hrest⟩ := h
          exact .inr (.inr ⟨e, hp.getElem? he, hrest⟩)

theorem Rejection.passed {error : Error} (h : Rejection env x i error w) (hp : Passed i w w') :
    Rejection env x i error w' := by
  refine ⟨fun e he c hm => ?_, fun e he id hm => ?_, ?_⟩
  · cases hp.cases he with
    | inl he => exact h.issued e he c hm
    | inr hidle => exact hidle.2 c hm
  · cases hp.cases he with
    | inl he =>
        obtain ⟨T, hT, hhash, n, hl⟩ := h.revokes e he id hm
        obtain ⟨T', hT', hev⟩ := hp.evolves.kept T hT
        refine ⟨T', hT', hev.tokenHash.trans hhash, n, ?_⟩
        rw [hev.id]
        exact hp.evolves.links_mono hp.families hl
    | inr hidle => exact absurd hm (hidle.1 id)
  · obtain ⟨e, he, hreason⟩ := h.reason
    refine ⟨e, hp.getElem? he, hreason.imp_right fun hreason => ⟨hreason.1, fun T hT hhash => ?_⟩⟩
    exact (hreason.2 T hT hhash).passed hp

theorem Logout.passed {out : Except Error Response} (h : Logout env x i out w)
    (hp : Passed i w w') : Logout env x i out w' := by
  constructor
  · intro e he
    cases hp.cases he with
    | inl he =>
        refine (h.idle e he).imp_right fun hflush => ?_
        obtain ⟨T, hT, hm, hhash, hrev, hdead⟩ := hflush
        exact ⟨T, hT, hm, hhash, hrev.evolves hp.evolves, fun hn => (hdead hn).evolves hp.evolves⟩
    | inr hidle => exact .inl hidle
  · obtain ⟨e, he, hfound⟩ := h.found
    refine ⟨e, hp.getElem? he, fun hout T hT hhash hlive => ?_⟩
    obtain ⟨e', he', hm⟩ := hfound hout T hT hhash hlive
    exact ⟨e', hp.mem he', hm⟩

/-- A logout that found nothing to revoke. -/
theorem Logout.of_idle {out : Except Error Response} {e : Entry (machine env) Request}
    (hown : w.own i = [e]) (hidle : e.mark.Idle)
    (hfound : out = .ok .done → ∀ T ∈ tokensOf e.before, T.tokenHash = env.sha256 x →
      T.revokedAt ≠ none) : Logout env x i out w := by
  refine ⟨fun e' he' => .inl (List.mem_singleton.mp (hown ▸ he') ▸ hidle), e, by rw [hown]; rfl, ?_⟩
  exact fun hout T hT hhash hlive => absurd hlive (hfound hout T hT hhash)

/-- What a call has reached stays so. -/
theorem TokenPost.passed {out : Except Error Response} (h : TokenPost env req i out l w)
    (hp : Passed i w w') : TokenPost env req i out l' w' := by
  have hidle : (∀ e ∈ w.own i, e.mark.Idle) → ∀ e ∈ w'.own i, e.mark.Idle := fun h e he =>
    (hp.cases he).elim (h e) id
  cases req with
  | refresh x =>
      cases x with
      | surrogate _ _ _ => exact ⟨h.1, hidle h.2⟩
      | text x =>
          cases out with
          | ok response =>
              obtain ⟨tokens, hresponse, hrot⟩ := h
              exact ⟨tokens, hresponse, hrot.passed hp⟩
          | error error => exact Rejection.passed h hp
  | logout x =>
      cases x with
      | surrogate _ _ _ => exact ⟨h.1, hidle h.2⟩
      | text x => exact Logout.passed h hp
  | login _ _ =>
      intro e he id hm
      cases hp.cases he with
      | inl he => exact h e he id hm
      | inr hidle => exact hidle.1 id hm
  | _ => exact hidle h

/-- What a call leaves to the rollback that ends it. -/
def CallPost (env : Environment) (req : Request) (i : Nat) :
    Protocol.Post (machine env) Request Error Response := fun out l w =>
  l.TokenFree ∧ TokenPost env req i out l w

theorem wp_ret {a : Response} (hu : Families u.tokens) (hfree : l.TokenFree)
    (h : TokenPost env req i (.ok a) l u) :
    (tokenProtocol env).wp i req (CallPost env req i) (.ret a) l u :=
  fun _ hv => ⟨hfree, h.passed (hv.passed hu)⟩

theorem wp_raise {e : Error} (hu : Families u.tokens) (hfree : l.TokenFree)
    (h : TokenPost env req i (.error e) l u) :
    (tokenProtocol env).wp i req (CallPost env req i) (.raise e) l u :=
  fun _ hv => ⟨hfree, h.passed (hv.passed hu)⟩

theorem tokenFree_of_nil (hp : l.pending = []) : l.TokenFree := by
  intro v hv
  rw [hp] at hv
  cases hv

end SecureIam
