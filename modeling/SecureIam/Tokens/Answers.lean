import SecureIam.Services.Discipline
import SecureIam.Services.Runs
import SecureIam.Tokens.Rotation

/-!
That every call is answered, and how a refresh or a logout is: no lookup finds several
rows, no session waits forever, and whatever is wrong with a token, a refresh says the same,
unless the string cannot be hashed.
-/
namespace SecureIam
open Lib AuthService
variable {env : Environment} {p p' : Calls env}

theorem TokenInv.single {w : History env Request} (hw : TokenInv w) (hd : env.Distinct) :
    w.shared.state.Single :=
  ⟨hw.sound.schema, fun _ hT _ hT' hhash => hw.row_of_hash hd hT hT' hhash⟩

/-- The session has written nothing, or holds these keys. -/
def Retains (σ : Option (List LockKey)) (i : Nat) (l : Session) (w : History env Request) : Prop :=
  match σ with
  | none => l.pending = []
  | some held => ∀ k ∈ held, w.shared.locks k = some i

def Holding (i : Nat) (w : History env Request) : Prop := ∃ k, w.shared.locks k = some i

section Exec
variable {σ : Option (List LockKey)} {i : Nat} {req : Request} {o : Stmt} {r : o.Res}
    {l l' : Session}
  {w w' : History env Request}

theorem next_of_ends (ho : o.ends = true) : sessions.next σ o r = none := by
  cases o
  case commit | rollback => rfl
  all_goals cases ho

theorem next_of_open (ho : o.ends = false) :
    sessions.next σ o r = match o.locked r with
      | none => σ
      | some keys => some (σ.getD [] ++ keys) := by
  cases o
  case commit | rollback => cases ho
  all_goals rfl

theorem Retains.sees (h : Retains σ i l w) (hw : w.shared.state.Single)
    (hexec : w.exec i req o l = some (r, w', l')) : sessions.sees σ o r := by
  cases σ with
  | some held => trivial
  | none =>
      cases o with
      | select τ q =>
          intro hq
          obtain ⟨g, hg, -⟩ := World.exec_step hexec
          obtain ⟨rfl, -⟩ := exec_select hg
          rw [Session.view_of_nil h, List.length_map]
          exact hq _ hw
      | _ => trivial

theorem Retains.exec (h : Retains σ i l w) (hexec : w.exec i req o l = some (r, w', l')) :
    Retains (sessions.next σ o r) i l' w' := by
  obtain ⟨g, hg, rfl, -⟩ := World.exec_step hexec
  have heff := exec_effect hg
  cases ho : o.ends with
  | true =>
      rw [next_of_ends ho]
      exact (heff.ended ho).2.1
  | false =>
      have hreported := exec_reported hg ho
      have hlocks := (heff.grows ho).2.1
      rw [next_of_open ho]
      cases hlocked : o.locked r with
      | none =>
          rw [hlocked] at hreported
          cases σ with
          | none => exact hreported.2.trans h
          | some held => exact fun k hk => hlocks k i (h k hk)
      | some keys =>
          rw [hlocked] at hreported
          intro k hk
          cases List.mem_append.mp hk with
          | inr hk => exact hreported k hk
          | inl hk =>
              cases σ with
              | none => cases hk
              | some held => exact hlocks k i (h k hk)

theorem Retains.free (h : Retains none i l w) (hl : InSession i l w) : ¬ Holding i w := by
  intro hholds
  obtain ⟨k, hk⟩ := hholds
  obtain ⟨v, hv, -⟩ := hl.holds.pending k hk
  rw [show l.pending = [] from h] at hv
  cases hv

/-- What a session still writes after its first write is its own already, or newly drawn. -/
theorem Retains.prompt {held : List LockKey} (h : Retains (some held) i l w) (hw : Sound w)
    (ho : o.Prompt held) {v : Write} (hv : o.Writes v)
    (hnew : ∀ τ id, .primary τ id ∈ v.adds → id = env.uuid w.trace.length) {k : LockKey}
    (hk : k ∈ v.keys) : w.shared.Free i k := by
  cases o with
  | insert τ draft =>
      cases τ with
      | refreshTokens =>
          obtain ⟨u, now, rfl⟩ := hv
          have hk' : k = .primary .refreshTokens (draft.row u now).id := List.mem_singleton.mp hk
          have hid := hnew .refreshTokens _ (List.mem_singleton_self _)
          rw [hk', hid]
          cases hlock : w.shared.locks (.primary .refreshTokens (env.uuid w.trace.length)) with
          | none => exact .inl hlock
          | some j => exact absurd hlock (hw.fresh.unlocked _ _ j (Nat.le_refl _))
      | _ => exact ho.elim
  | updateReplacedBy id child =>
      obtain rfl : v = .setReplacedBy id child := hv
      rw [List.mem_singleton.mp hk]
      exact .inr (h _ ho)
  | updateLastLoginAt | updateIsActive | revokeIfActive | updateRevokedAt | deleteRolePermission
  | deleteUserRole | deleteMembership => exact ho.elim
  | _ => exact hv.elim

/-- Who has written waits for nobody, and nobody waits for who has not. -/
theorem Retains.unblocked (h : Retains σ i l w) (hw : Sound w) (hl : InSession i l w)
    (ho : sessions.may σ o) (hrun : Holding i w ∨ ∀ j, j ≠ i → ¬ Holding j w) :
    ∃ x, w.exec i req o l = some x := by
  have hexec : ∃ x, SecureIam.exec env w.trace.length i o w.shared l = some x := by
    refine exec_isSome fun v hv hnew k hk => ?_
    cases hrun with
    | inr hothers =>
        cases hlock : w.shared.locks k with
        | none => exact .inl hlock
        | some j =>
            obtain rfl : j = i := not_not.mp fun hji => hothers j hji ⟨k, hlock⟩
            exact .inr hlock
    | inl hholds =>
        cases σ with
        | none => exact absurd hholds (h.free hl)
        | some held => exact h.prompt hw ho hv hnew hk
  obtain ⟨⟨r, g, l'⟩, hx⟩ := hexec
  exact ⟨_, by rw [World.exec]; exact congrArg _ hx⟩

end Exec

/-- Sessions under the token protocol keep to their discipline. -/
def sessionBond (hd : env.Distinct) : Bond (tokenProtocol env) sessions where
  fits := Retains
  holds := Holding
  start _ := rfl
  rely {σ i l w w'} h hr := by
    cases σ with
    | none => exact h
    | some held => exact fun k hk => (hr.1.allowed.undisturbed.locks k).mpr (h k hk)
  exec h hw _ _ hexec := ⟨h.sees (hw.single hd) hexec, h.exec hexec⟩
  free h _ hl := h.free hl
  rely_holds hr h := by
    obtain ⟨k, hk⟩ := h
    exact ⟨k, (hr.1.allowed.undisturbed.locks k).mp hk⟩
  owner hw h := by
    obtain ⟨k, hk⟩ := h
    exact hw.sound.holder k _ hk
  unblocked _ h hw hl ho hrun := h.unblocked hw.sound hl ho hrun

section Logout
variable {x : String} {i : Nat} {req : Request} {l : Session} {u : History env Request}

/-- A logout of a text returns; nothing can fail in it but its lookup. -/
def Answered (req : Request) (_ : Nat) : Protocol.Post (machine env) Request Error Response :=
    fun out _ _ =>
  match req with
  | .logout (.text _) => out = .ok .done ∨ out = .error .multipleResultsFound
  | _ => True

theorem wp_logoutAnswered (hown : u.own i = []) :
    (tokenProtocol env).wp i (.logout x)
      (fun out l (w : History env Request) => l.TokenFree ∧ Answered (.logout x) i out l w)
      (call env (.logout x)) {} u := by
  simp only [call, AuthService.logout, Program.map_def, Program.bind_def, Program.bind_assoc,
    hashRefreshToken_text, Program.ofExcept_ok]
  refine wp_getByHash hown (fun w l e hw hp _ _ _ => ?_) (fun w l T hT => ?_)
    fun w l e hw hp _ _ _ => ?_
  · exact fun _ _ => ⟨tokenFree_of_nil hp, .inl rfl⟩
  · simp only
    split
    · exact fun _ _ => ⟨tokenFree_of_nil hT.pending, .inl rfl⟩
    · simp only [Program.bind_assoc]
      refine wp_revoke hT fun w l _ hw hp _ hkey => ?_
      refine wp_record hw.families hp (fun actor hactor => Option.some.inj hactor ▸ hkey) rfl
        (fun hreuse => by cases hreuse) fun w' l' _ hw' _ hp' _ => ?_
      exact fun _ _ => ⟨tokenFree_of_nil hp', .inl rfl⟩
  · exact fun _ _ => ⟨tokenFree_of_nil hp, .inr rfl⟩

theorem serve_answers (env : Environment) : (tokenProtocol env).Serves Answered (serve env) := by
  intro req i u hu hfresh
  have other : (∀ out l w, Answered req i out l w) → (tokenProtocol env).wp i req
      (Answered req i) (serve env req) (machine env).start u := fun hany =>
    (serve_keeps env req i u hu hfresh).mono fun out l w _ _ _ => hany out l w
  cases req with
  | logout x =>
      cases x with
      | surrogate _ _ _ => exact other fun _ _ _ => trivial
      | text x =>
          have hown : u.own i = [] :=
            List.filter_eq_nil_iff.mpr fun e he => by simpa using hfresh e he
          refine Protocol.wp_ensure ((wp_logoutAnswered hown).mono fun out l w _ _ hpost => ?_)
            fun _ h _ => h
          intro v hv r w' l' hexec
          obtain ⟨hinv, htokens, -⟩ := hv.2.1.tokenFree hv.2.2 hpost.1 hexec trivial
          have hev : Evolves v.tokens w'.tokens := htokens ▸ .refl _
          exact ⟨hinv, hev, fun _ _ => hpost.2⟩
  | _ => exact other fun _ _ _ => trivial

end Logout

namespace Calls.Reachable
variable (h : p.Reachable) {i : Nat} {th : Thread (machine env) Request Error Response}
include h

theorem bound (hd : env.Distinct) : (sessionBond hd).Kept (TokenPost env) (fun _ => Closed) p := by
  obtain ⟨t, ht, hr⟩ := h
  exact (Bond.kept_start (tokenInv_fresh ht) rfl).reaches (serve_keeps env) serve_orderly hr

theorem not_multipleResultsFound (hd : env.Distinct) (hth : p.threads[i]? = some th) :
    th.outcome ≠ some (.error .multipleResultsFound) := by
  intro hout
  obtain ⟨σ, -, hclosed⟩ := (h.bound hd).outcome hth hout
  exact hclosed.2 rfl

theorem answered {out : Except Error Response} (hth : p.threads[i]? = some th)
    (hout : th.outcome = some out) : Answered th.request i out th.session p.world := by
  obtain ⟨t, ht, hr⟩ := h
  have hkept : (tokenProtocol env).Kept Answered p :=
    (Protocol.kept_start (tokenInv_fresh ht) rfl).reaches (serve_answers env) hr
  exact hkept.outcome hth (Thread.code_of_outcome hout)

end Calls.Reachable

/-- Every refresh of the string that has ended, now or later, returned tokens or raised the one
error, and every logout of it returned. -/
def Calls.Answers (p : Calls env) (x : PyStr) : Prop :=
  ∀ (p' : Calls env) (i : Nat) (th : Thread (machine env) Request Error Response)
    (out : Except Error Response), Reaches (serve env) p p' → p'.threads[i]? = some th →
    th.outcome = some out →
    (th.request = .refresh x →
      (∃ response, out = .ok (.tokens response)) ∨ out = .error invalidRefreshToken) ∧
    (th.request = .logout x → out = .ok .done)

section Answers
variable (hd : env.Distinct) (h : p.Reachable)
include hd h

theorem answers_text (x : String) : p.Answers (.text x) := by
  intro p' i th out hr hth hout
  have h' := h.reaches hr
  have hmany : out ≠ .error .multipleResultsFound := fun heq =>
    h'.not_multipleResultsFound hd hth (heq ▸ hout)
  refine ⟨fun hreq => ?_, fun hreq => ?_⟩
  · have hpost := h'.outcome hth hout
    rw [hreq] at hpost
    cases out with
    | ok response =>
        obtain ⟨tokens, hresponse, -⟩ := hpost
        exact .inl ⟨tokens, congrArg _ hresponse⟩
    | error e =>
        obtain ⟨e₀, -, hreason⟩ := hpost.reason
        cases hreason with
        | inl hrows => exact absurd (congrArg _ hrows.1) hmany
        | inr hinvalid => exact .inr (congrArg _ hinvalid.1)
  · have hanswered := h'.answered hth hout
    rw [hreq] at hanswered
    exact hanswered.resolve_right hmany

theorem exists_ended {i : Nat} {th : Thread (machine env) Request Error Response}
    (hth : p.threads[i]? = some th) : ∃ p' th', Reaches (serve env) p p' ∧
      p'.threads[i]? = some th' ∧ th'.request = th.request ∧ th'.outcome ≠ none :=
  (h.bound hd).ends (serve_keeps env) serve_orderly (fun hclosed => hclosed.1) hth

/-- A refresh of another string, started now, ends in an error of its own. -/
theorem not_answers_surrogate (s : String) (c : Fin 2048) (x : PyStr) :
    ¬ p.Answers (.surrogate s c x) := by
  intro hanswers
  have hspawn : Step (serve env) p _ := .spawn p (.refresh (.surrogate s c x))
  have hth : (p.threads ++ [⟨.refresh (.surrogate s c x), (machine env).start,
      serve env (.refresh (.surrogate s c x))⟩])[p.threads.length]? = some _ :=
    List.getElem?_concat_length
  obtain ⟨p', th', hr, hth', hreq, hended⟩ := exists_ended hd (h.reaches (.single hspawn)) hth
  obtain ⟨out, hout⟩ := Option.ne_none_iff_exists'.mp hended
  have hpost := (h.reaches (.head hspawn hr)).outcome hth' hout
  rw [hreq] at hpost
  obtain ⟨rfl, -⟩ := hpost
  cases (hanswers p' _ th' _ (.head hspawn hr) hth' hout).1 hreq with
  | inl htokens =>
      obtain ⟨response, heq⟩ := htokens
      cases heq
  | inr hinvalid => cases hinvalid

end Answers

/-- No lookup finds two rows. Whatever the interleaving, no call raises about several rows, and
each can still come to its end. Every refresh and every logout of a string is answered as it
should if and only if the string can be encoded. -/
theorem calls_answered_iff (hd : env.Distinct) (h : p.Reachable) :
    ((∀ email, (p.tables.users.filter (·.email = env.lower email)).length ≤ 1) ∧
      (∀ hash, (p.tables.refreshTokens.filter (·.tokenHash = hash)).length ≤ 1) ∧
      (∀ u r o, (p.tables.userRoles.filter fun ur =>
        ur.userId = u ∧ ur.roleId = r ∧ ur.organizationId = o).length ≤ 1) ∧
      ∀ u o, (OrganizationMembershipRepository.membershipsOf u o p.tables).length ≤ 1) ∧
    (∀ (i : Nat) (th : Thread (machine env) Request Error Response), p.threads[i]? = some th →
      (∃ p' th', Reaches (serve env) p p' ∧ p'.threads[i]? = some th' ∧ th'.request = th.request ∧
        th'.outcome ≠ none) ∧
      th.outcome ≠ some (.error .multipleResultsFound)) ∧
    ∀ x : PyStr, p.Answers x ↔ x.encode ≠ none := by
  have hsingle := h.inv.single hd
  refine ⟨⟨fun email => lookup_email _ _ hsingle, fun hash => lookup_hash _ _ hsingle,
    fun u r o => lookup_assignment u r o _ hsingle, fun u o => lookup_membership u o _ hsingle⟩,
    fun i th hth => ⟨exists_ended hd h hth, h.not_multipleResultsFound hd hth⟩, fun x => ?_⟩
  cases x with
  | text x => exact ⟨fun _ => Option.some_ne_none x, fun _ => answers_text hd h x⟩
  | surrogate s c x =>
      exact ⟨fun hanswers => absurd hanswers (not_answers_surrogate hd h s c x),
        fun hencoded => absurd rfl hencoded⟩

/-- The string `"\ud800"`. -/
def loneSurrogate : PyStr := .surrogate "" 0 (.text "")

theorem calls_answered_iff_rotatedOnce :
    (∀ hash, (rotatedOnce.tables.refreshTokens.filter (·.tokenHash = hash)).length ≤ 1) ∧
    (∀ th, rotatedOnce.threads[2]? = some th →
      th.outcome ≠ some (.error .multipleResultsFound)) ∧
    rotatedOnce.Answers (.text (plainEnvironment.token 18)) ∧
    ¬ rotatedOnce.Answers loneSurrogate := by
  have hreachable : rotatedOnce.Reachable := loggedIn_reachable.played _
  obtain ⟨hsingle, hcalls, hanswers⟩ := calls_answered_iff plainEnvironment_distinct hreachable
  refine ⟨hsingle.2.1, fun th hth => (hcalls 2 th hth).2,
    (hanswers _).mpr (Option.some_ne_none _), fun h => (hanswers _).mp h rfl⟩

/-- A refresh and a logout of a string that has no UTF-8 encoding. -/
def presentedSurrogate : Calls plainEnvironment :=
  loggedIn.played (serve plainEnvironment)
    [.spawn (.refresh loneSurrogate), .finish 2, .spawn (.logout loneSurrogate), .finish 3]

/-- Neither is answered as a refresh or a logout of a text is. -/
theorem surrogate_unanswered : plainEnvironment.Distinct ∧ presentedSurrogate.Reachable ∧
    presentedSurrogate.threads[2]?.map (fun th => (th.request, th.outcome)) =
      some (.refresh loneSurrogate, some (.error .unicodeEncodeError)) ∧
    presentedSurrogate.threads[3]?.map (fun th => (th.request, th.outcome)) =
      some (.logout loneSurrogate, some (.error .unicodeEncodeError)) ∧
    ¬ loggedIn.Answers loneSurrogate := by
  have hrefresh : presentedSurrogate.threads[2]?.map (fun th => (th.request, th.outcome)) =
      some (.refresh loneSurrogate, some (.error .unicodeEncodeError)) := by
    decide +kernel
  refine ⟨plainEnvironment_distinct, loggedIn_reachable.played _, hrefresh, by decide +kernel,
    fun hanswers => ?_⟩
  obtain ⟨th, hth, hcall⟩ := Option.map_eq_some_iff.mp hrefresh
  obtain ⟨hreq, hout⟩ := Prod.mk.inj hcall
  cases (hanswers presentedSurrogate 2 th _ (Pool.played_reaches _ _ _) hth hout).1 hreq with
  | inl htokens =>
      obtain ⟨response, heq⟩ := htokens
      cases heq
  | inr hinvalid => cases hinvalid

end SecureIam
