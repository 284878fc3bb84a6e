import SecureIam.Db.Results
import SecureIam.Tokens.History

/-!
The protocol that the sessions keep with one another on `refresh_tokens`. Sessions
may assume that rows only evolve; statements that do not touch the table keep the
protocol for free, the others are accounted for one by one.
-/
namespace SecureIam
open Lib
variable {env : Environment} {w w' : History env Request} {i j : Nat} {req : Request} {o : Stmt}
  {r : o.Res} {l l' : Session}

theorem exec_lasts (hl : InSession i l w) (h : w.exec i req o l = some (r, w', l')) :
    w.shared.state.Lasts w'.shared.state :=
  (exec_interference (Nat.succ_ne_self i).symm hl h).allowed.lasts

theorem Drawn.grow {x : RefreshToken} {new : List (Entry (machine env) Request)}
    (hd : Drawn w j x) (hown : w'.own j = w.own j ++ new) : Drawn w' j x := by
  obtain ⟨d, u, hin, hrest⟩ := hd
  exact ⟨d, u, hown ▸ hin.trans (List.prefix_append _ _).isInfix, hrest⟩

theorem Drawn.exec {x : RefreshToken} (hd : Drawn w j x) (h : w.exec i req o l = some (r, w', l')) :
    Drawn w' j x := by
  obtain ⟨new, hown⟩ := World.own_exec h j
  exact hd.grow hown

theorem Truthful.exec {e : Entry (machine env) Request} (ht : Truthful w e)
    (h : w.exec i req o l = some (r, w', l')) : Truthful w' e := by
  intro row hm ha
  obtain ⟨x, b, last, T, hT, hreq, hhash, hnext, hmeta, hlast, hrest⟩ := ht row hm ha
  obtain ⟨new, hown⟩ := World.own_exec h e.pid
  refine ⟨x, b, last, T, hT, hreq, hhash, hnext, hmeta, ?_, ?_⟩
  · rw [hown]
    exact hlast.trans (List.prefix_append _ _).isInfix
  · cases hrest with
    | inl hdead => exact .inl hdead
    | inr hrest =>
        cases hrest with
        | inl hlost =>
            obtain ⟨e', he', hlost⟩ := hlost
            exact .inr (.inl ⟨e', hown ▸ List.mem_append_left _ he', hlost⟩)
        | inr hlong => exact .inr (.inr hlong)

/-- What a step must account for, by what its statement means. -/
structure Accounted (w w' : History env Request) (i : Nat) (m : Mark) : Prop where
  revokes : ∀ id, m.Revokes id →
    w'.shared.locks (tokenKey id) = some i ∧ w.shared.state.hasKey (tokenKey id)
  winner : ∀ id, m = .guard id 1 → ∀ e ∈ w.trace, e.mark = .guard id 1 → e.pid = i
  issued : ∀ r, m = .issued r → Drawn w i r ∧ ∀ e ∈ w.trace, ∀ r', e.mark = .issued r' → e.pid ≠ i
  truthful : ∀ e, w'.own i = w.own i ++ [e] → e.pid = i → e.mark = m → Truthful w' e

/-- What a step does to the committed rows. -/
structure Published (w w' : History env Request) : Prop where
  families : Families w'.tokens
  evolves : Evolves w.tokens w'.tokens
  locks : ∀ id j, w.shared.locks (tokenKey id) = some j → w.shared.state.hasKey (tokenKey id) →
    Revoked w'.tokens id ∨ w'.shared.locks (tokenKey id) = some j
  caused : ∀ r ∈ w'.tokens, r.revokedAt ≠ none → ∃ e ∈ w.trace, e.mark.Revokes r.id
  issued : ∀ r ∈ w'.tokens, ∃ e ∈ w.trace, ∃ r₀, e.mark = .issued r₀ ∧ r₀.Evolves r
  rooted : ∀ r ∈ w'.tokens, (∃ p ∈ w'.tokens, p.replacedBy = some r.id) ∨
    ∃ e ∈ w.trace, e.request.isLogin ∧ ∃ r₀, e.mark = .issued r₀ ∧ r₀.id = r.id
  linked : ∀ r ∈ w'.tokens, ∀ c, r.replacedBy = some c → LinkedBy w r c

theorem TokenInv.step (hw : TokenInv w) (hl : InSession i l w)
    (h : w.exec i req o l = some (r, w', l')) (ha : Accounted w w' i (Stmt.mark o r))
    (hp : Published w w') : TokenInv w' := by
  have htrace := World.exec_trace h
  have hmem : ∀ e ∈ w.trace, e ∈ w'.trace := fun e he => by simp [htrace, he]
  have hcases : ∀ e ∈ w'.trace,
      e ∈ w.trace ∨ (e.pid = i ∧ e.mark = Stmt.mark o r ∧ w'.own i = w.own i ++ [e]) := by
    intro e he
    rw [htrace, List.mem_append, List.mem_singleton] at he
    cases he with
    | inl he => exact .inl he
    | inr he => exact .inr (he ▸ ⟨rfl, rfl, World.own_exec_self h⟩)
  have hlast := exec_lasts hl h
  constructor
  · exact exec_sound hw.sound hl h
  · exact hp.families
  · intro e he id hm
    cases hcases e he with
    | inl he =>
        cases hw.revokes e he id hm with
        | inl hrev => exact .inl (hrev.evolves hp.evolves)
        | inr hlock =>
            cases hp.locks id e.pid hlock.1 hlock.2 with
            | inl hrev => exact .inl hrev
            | inr hlock' => exact .inr ⟨hlock', hlast _ (LockKey.not_link (by decide)) hlock.2⟩
    | inr he =>
        obtain ⟨hlock, hkey⟩ := ha.revokes id (he.2.1 ▸ hm)
        exact .inr ⟨he.1 ▸ hlock, hlast _ (LockKey.not_link (by decide)) hkey⟩
  · intro e he e' he' id hm hm'
    cases hcases e he with
    | inl he =>
        cases hcases e' he' with
        | inl he' => exact hw.winner e he e' he' id hm hm'
        | inr he' => rw [he'.1]; exact ha.winner id (he'.2.1 ▸ hm') e he hm
    | inr he =>
        cases hcases e' he' with
        | inl he' => rw [he.1]; exact (ha.winner id (he.2.1 ▸ hm) e' he' hm').symm
        | inr he' => rw [he.1, he'.1]
  · intro x hx hrev
    obtain ⟨e, he, hm⟩ := hp.caused x hx hrev
    exact ⟨e, hmem e he, hm⟩
  · intro x hx
    obtain ⟨e, he, hm⟩ := hp.issued x hx
    exact ⟨e, hmem e he, hm⟩
  · intro e he x hm
    cases hcases e he with
    | inl he => exact (hw.drawn e he x hm).exec h
    | inr he => rw [he.1]; exact (ha.issued x (he.2.1 ▸ hm)).1.exec h
  · intro e he e' he' x x' hm hm' hpid
    rw [htrace, List.mem_append, List.mem_singleton] at he he'
    cases he with
    | inl he =>
        cases he' with
        | inl he' => exact hw.once e he e' he' x x' hm hm' hpid
        | inr he' =>
            subst he'
            exact absurd hpid ((ha.issued x' hm').2 e he x hm)
    | inr he =>
        subst he
        cases he' with
        | inl he' => exact absurd hpid.symm ((ha.issued x hm).2 e' he' x' hm')
        | inr he' => exact he'.symm
  · intro x hx
    cases hp.rooted x hx with
    | inl hpred => exact .inl hpred
    | inr hlogin =>
        obtain ⟨e, he, hrest⟩ := hlogin
        exact .inr ⟨e, hmem e he, hrest⟩
  · intro x hx c hc
    obtain ⟨e, he, hrest⟩ := hp.linked x hx c hc
    exact ⟨e, hmem e he, hrest⟩
  · intro e he
    cases hcases e he with
    | inl he => exact (hw.truthful e he).exec h
    | inr he => exact ha.truthful e he.2.2 he.1 he.2.1

/-- A step that publishes nothing leaves the rows as they are. -/
theorem TokenInv.published (hw : TokenInv w) (hstate : w'.tokens = w.tokens)
    (hlocks : ∀ id j, w.shared.locks (tokenKey id) = some j →
      w'.shared.locks (tokenKey id) = some j) : Published w w' := by
  refine ⟨hstate ▸ hw.families, hstate ▸ .refl _,
    fun id j hj _ => .inr (hlocks id j hj), ?_, ?_, ?_, ?_⟩
  · rw [hstate]; exact hw.caused
  · rw [hstate]; exact hw.issued
  · rw [hstate]; exact hw.rooted
  · rw [hstate]; exact hw.linked

/-- The protocol on `refresh_tokens`. -/
def tokenProtocol (env : Environment) : Protocol (machine env) Request where
  inv := TokenInv
  loc := InSession
  rely j w w' := Interference j w w' ∧ Evolves w.tokens w'.tokens
  guar _ _ _ w w' := Evolves w.tokens w'.tokens
  rely_refl j w := ⟨.refl j w, .refl _⟩
  rely_trans h h' := ⟨h.1.trans h'.1, h.2.trans h'.2⟩
  loc_start hw h := start_inSession hw.sound h
  loc_rely hl h := hl.allowed h.1.allowed
  loc_exec hl h := exec_inSession hl h
  exec_rely hij _ hl h _ hg := ⟨exec_interference hij hl h, hg⟩

/-! Statements that mean nothing for the tokens. -/

def Mark.Neutral : Mark → Prop
  | guard _ count | flush _ count => count ≠ 1
  | issued _ => False
  | recorded row => row.action ≠ .refreshTokenReuseDetected
  | drawn _ | read _ | other => True

theorem Mark.Neutral.not_revokes {m : Mark} {id : Uuid} (hm : m.Neutral) : ¬ m.Revokes id := by
  intro h
  cases h with
  | inl h => exact (h ▸ hm : (Mark.guard id 1).Neutral) rfl
  | inr h => exact (h ▸ hm : (Mark.flush id 1).Neutral) rfl

theorem Mark.Neutral.accounted {m : Mark} (hm : m.Neutral) : Accounted w w' i m := by
  refine ⟨fun id h => absurd h hm.not_revokes, fun id h => ?_, fun x h => ?_, ?_⟩
  · exact absurd (.inl h) (hm.not_revokes : ¬ m.Revokes id)
  · subst h
    exact hm.elim
  · intro e _ _ he row hrow ha
    rw [he] at hrow
    subst hrow
    exact absurd ha hm

/-- Inside a transaction, a statement without a meaning for the tokens changes nothing. -/
theorem TokenInv.quiet (hw : TokenInv w) (hl : InSession i l w)
    (h : w.exec i req o l = some (r, w', l')) (ho : o.ends = false) (hm : (Stmt.mark o r).Neutral) :
    TokenInv w' ∧ w'.shared.state = w.shared.state := by
  obtain ⟨g, hg, rfl, -⟩ := World.exec_step h
  obtain ⟨hstate, hlocks, -⟩ := (exec_effect hg).grows ho
  have hp := hw.published (congrArg Tables.refreshTokens hstate) fun id j => hlocks (tokenKey id) j
  exact ⟨hw.step hl h hm.accounted hp, hstate⟩

def Write.TokenFree : Write → Prop
  | .insert .refreshTokens _ | .setRevokedAt _ _ | .setReplacedBy _ _ => False
  | _ => True

def Stmt.TokenFree : Stmt → Prop
  | .insert .refreshTokens _ | .revokeIfActive _ _ | .updateRevokedAt _ _
  | .updateReplacedBy _ _ => False
  | .insert .auditLogs draft => ∀ u now, (draft.row u now).action ≠ .refreshTokenReuseDetected
  | _ => True

def Session.TokenFree (l : Session) : Prop := ∀ v ∈ l.pending, v.TokenFree

theorem Write.TokenFree.rows {v : Write} (hv : v.TokenFree) (t : Tables) :
    (v.apply t).refreshTokens = t.refreshTokens := by
  cases v with
  | insert τ x => cases τ <;> first | rfl | exact hv.elim
  | setRevokedAt _ _ | setReplacedBy _ _ => exact hv.elim
  | _ => rfl

theorem Write.TokenFree.keys {v : Write} (hv : v.TokenFree) (id : Uuid) : tokenKey id ∉ v.keys := by
  intro hk
  cases v with
  | insert τ x =>
      obtain rfl : Table.refreshTokens = τ := Table.mem_keys_table hk
      exact hv.elim
  | setRevokedAt _ _ | setReplacedBy _ _ => exact hv.elim
  | deleteRolePermission _ =>
      exact absurd (Table.mem_keys_table (τ := .rolePermissions) hk) (by simp [LockKey.table])
  | deleteUserRole _ =>
      exact absurd (Table.mem_keys_table (τ := .userRoles) hk) (by simp [LockKey.table])
  | deleteMembership _ =>
      exact absurd (Table.mem_keys_table (τ := .memberships) hk) (by simp [LockKey.table])
  | setLastLoginAt _ _ | setIsActive _ _ => simp [Write.keys] at hk

theorem tokens_view {ws : List Write} (hws : ∀ v ∈ ws, v.TokenFree) (t : Tables) :
    (Store.view (T := tableStore) ws t).refreshTokens = t.refreshTokens := by
  induction ws generalizing t with
  | nil => rfl
  | cons v ws ih =>
      have hrest := ih (fun u hu => hws u (by simp [hu])) (v.apply t)
      exact hrest.trans ((hws v (by simp)).rows t)

theorem Stmt.TokenFree.writes (ho : o.TokenFree) {v : Write} (hv : o.Writes v) : v.TokenFree := by
  cases o with
  | insert τ draft =>
      obtain ⟨u, now, rfl⟩ := hv
      cases τ <;> first | exact ho | trivial
  | revokeIfActive _ _ | updateRevokedAt _ _ | updateReplacedBy _ _ => exact ho.elim
  | updateLastLoginAt _ _ | updateIsActive _ _ => exact hv ▸ trivial
  | deleteRolePermission _ _ | deleteUserRole _ | deleteMembership _ =>
      obtain ⟨r, rfl⟩ := hv
      trivial
  | _ => exact hv.elim

theorem Stmt.TokenFree.mark (ho : o.TokenFree) {n : Nat} {g g' : Database}
    (h : SecureIam.exec env n i o g l = some (r, g', l')) : (Stmt.mark o r).Neutral := by
  cases o with
  | insert τ draft =>
      cases exec_insert h with
      | inl hr => subst hr; cases τ <;> trivial
      | inr hr =>
          subst hr
          cases τ
          case refreshTokens => exact ho.elim
          case auditLogs => exact ho _ _
          all_goals trivial
  | revokeIfActive _ _ | updateRevokedAt _ _ | updateReplacedBy _ _ => exact ho.elim
  | _ => trivial

/-- Nothing that thread `i` did since `past` concerns the tokens. -/
def QuietSince (past : List (Entry (machine env) Request)) (i : Nat) (w : History env Request) :
    Prop :=
  ∃ new, w.own i = past ++ new ∧ ∀ e ∈ new, e.mark.Neutral

theorem QuietSince.refl (i : Nat) (w : History env Request) : QuietSince (w.own i) i w :=
  ⟨[], (List.append_nil _).symm, by simp⟩

theorem QuietSince.exec {past : List (Entry (machine env) Request)} (hq : QuietSince past i w)
    (h : w.exec i req o l = some (r, w', l')) (hm : (Stmt.mark o r).Neutral) :
    QuietSince past i w' := by
  obtain ⟨new, hown, hnew⟩ := hq
  refine ⟨new ++ [⟨w.trace.length, i, req, o, r, w.shared, w'.shared⟩], ?_, fun e he => ?_⟩
  · rw [World.own_exec_self h, hown, List.append_assoc]
  · rw [List.mem_append, List.mem_singleton] at he
    cases he with
    | inl he => exact hnew e he
    | inr he => exact he ▸ hm

/-- The end of a transaction that wrote no token. -/
theorem Published.of_tokenFree (hw : TokenInv w) (hl : InSession i l w) (hfree : l.TokenFree)
    (hstate : w'.tokens = w.tokens) (hlocks : w'.shared.locks = w.shared.unlock i) :
    Published w w' := by
  refine hw.published hstate fun id j hj => ?_
  rw [hlocks]
  refine Store.unlock_eq_some.mpr ⟨hj, fun hji => ?_⟩
  obtain ⟨v, hv, hk⟩ := hl.holds.pending (tokenKey id) (hji ▸ hj)
  exact (hfree v hv).keys id hk

/-- Statements that do not touch the tokens keep the protocol, in any order. -/
theorem TokenInv.tokenFree (hw : TokenInv w) (hl : InSession i l w) (hfree : l.TokenFree)
    (h : w.exec i req o l = some (r, w', l')) (ho : o.TokenFree) :
    TokenInv w' ∧ w'.tokens = w.tokens ∧ l'.TokenFree := by
  obtain ⟨g, hg, rfl, -⟩ := World.exec_step h
  have hm := ho.mark hg
  have heff := exec_effect hg
  cases hends : o.ends with
  | false =>
      obtain ⟨hinv, hstate⟩ := hw.quiet hl h hends hm
      obtain ⟨-, -, us, hpending, hus⟩ := heff.grows hends
      refine ⟨hinv, congrArg Tables.refreshTokens hstate, fun v hv => ?_⟩
      rw [hpending, List.mem_append] at hv
      cases hv with
      | inl hv => exact hfree v hv
      | inr hv => exact ho.writes (hus v hv)
  | true =>
      obtain ⟨hlocks, hpending, hstate⟩ := heff.ended hends
      have htokens : w'.tokens = w.tokens := by
        cases hstate with
        | inl hstate => exact congrArg Tables.refreshTokens hstate
        | inr hstate => exact (congrArg Tables.refreshTokens hstate).trans (tokens_view hfree _)
      have hp := Published.of_tokenFree hw hl hfree htokens hlocks
      refine ⟨hw.step hl h hm.accounted hp, htokens, fun v hv => ?_⟩
      simp [hpending] at hv

/-- The rule for a program that leaves the tokens alone. -/
theorem wp_tokenFree {α : Type} {past : List (Entry (machine env) Request)} {p : App α}
    (hp : p.All Stmt.TokenFree) (hl : l.TokenFree) (hq : QuietSince past i w) :
    (tokenProtocol env).wp i req (fun _ l' w' => l'.TokenFree ∧ QuietSince past i w') p l w := by
  refine Protocol.wp_of_all (J := fun (l : Session) w => l.TokenFree ∧ QuietSince past i w) hp ?_ ?_
    ⟨hl, hq⟩
  · intro l w w' hJ hr
    obtain ⟨new, hown, hnew⟩ := hJ.2
    exact ⟨hJ.1, new, hr.1.own ▸ hown, hnew⟩
  · intro o ho r l l' w w' hJ hw hl hexec
    obtain ⟨hinv, htokens, hfree⟩ := hw.tokenFree hl hJ.1 hexec ho
    obtain ⟨g, hg, -⟩ := World.exec_step hexec
    have hev : Evolves w.tokens w'.tokens := htokens ▸ .refl _
    exact ⟨hinv, hev, hfree, hJ.2.exec hexec (ho.mark hg)⟩

end SecureIam
